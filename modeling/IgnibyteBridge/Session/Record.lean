import IgnibyteBridge.Concurrency.Calls
import IgnibyteBridge.Daemon.Requests
import IgnibyteBridge.Json.Pretty
import IgnibyteBridge.Session.Metadata
import IgnibyteBridge.Storage.Linearization
import Mathlib.Data.List.Nodup

/-!
# The format of a session's record

`metadata.json` holds the fields of a `SessionMetadata` as a JSON object. A file that an
older program wrote, or a newer one, is read as well as it can be; a file of which only
the front is there is not read at all. Over `write_atomic` the file is a register of
records: a record that was loaded is one that was saved, and later loads get later ones.
-/

namespace IgnibyteBridge

open Json Text DaemonRequest

/-- `SessionMetadata` as it is stored: with its time stamps, and with the widths that
its numbers have. -/
structure StoredMetadata where
  name : String
  cwd : String
  command : List String
  status : SessionStatus
  supervisorPid : Option UInt32
  childPid : Option UInt32
  supervisorStartTime : Option UInt64
  childStartTime : Option UInt64
  generation : UInt64
  rows : UInt16
  cols : UInt16
  createdAtUnix : UInt64
  updatedAtUnix : UInt64
  exitStatus : Option String
  exitCode : Option UInt32
  deriving DecidableEq

/-- The name of a status in the file. -/
def SessionStatus.snakeCase : SessionStatus → String
  | .starting => "starting"
  | .running => "running"
  | .stopped => "stopped"

namespace StoredMetadata

/-! ## Serialization -/

/-- The derived `Serialize`: the fields as they are declared. -/
def fields (m : StoredMetadata) : Fields :=
  [field "name" (text m.name), field "cwd" (text m.cwd),
    field "command" (.array (m.command.map text)), field "status" (text m.status.snakeCase),
    field "supervisor_pid" (optional (fun n => natural n.toNat) m.supervisorPid),
    field "child_pid" (optional (fun n => natural n.toNat) m.childPid),
    field "supervisor_start_time" (optional (fun n => natural n.toNat) m.supervisorStartTime),
    field "child_start_time" (optional (fun n => natural n.toNat) m.childStartTime),
    field "generation" (natural m.generation.toNat), field "rows" (natural m.rows.toNat),
    field "cols" (natural m.cols.toNat), field "created_at_unix" (natural m.createdAtUnix.toNat),
    field "updated_at_unix" (natural m.updatedAtUnix.toNat),
    field "exit_status" (optional text m.exitStatus),
    field "exit_code" (optional (fun n => natural n.toNat) m.exitCode)]

/-- The fields that a record has. -/
def keys : List String :=
  ["name", "cwd", "command", "status", "supervisor_pid", "child_pid", "supervisor_start_time",
    "child_start_time", "generation", "rows", "cols", "created_at_unix", "updated_at_unix",
    "exit_status", "exit_code"]

/-- The fields that a file need not have: those with a default, and those of an `Option` type. -/
def omissible : List String :=
  ["supervisor_pid", "child_pid", "supervisor_start_time", "child_start_time", "generation",
    "rows", "cols", "exit_status", "exit_code"]

/-! ## Deserialization -/

/-- `u32`. -/
def asU32 : Value → Option UInt32
  | .number n => (n.toNat?.filter (· < UInt32.size)).map UInt32.ofNat
  | _ => none

/-- `u64`. -/
def asU64 : Value → Option UInt64 := asUsize

/-- The status that has a name. -/
def statusOf (name : List Char) : Option SessionStatus :=
  [SessionStatus.starting, .running, .stopped].find? fun status => status.snakeCase.toList = name

/-- `SessionStatus`: its name, or an object with that field and no content. -/
def asStatus : Value → Option SessionStatus
  | .string name => statusOf name
  | .object [(name, .null)] => statusOf name
  | _ => none

/-- A field with `#[serde(default)]`. -/
def orDefault {α : Type} (f : Value → Option α) (default : α) (key : String) (fields : Fields) :
    Option α :=
  match find key fields with
  | none => some default
  | some v => f v

/-- The derived `Deserialize`, of an object that has no field of a record twice. -/
def ofFields (fields : Fields) : Option StoredMetadata := do
  let name ← required asText "name" fields
  let cwd ← required asText "cwd" fields
  let command ← required asTexts "command" fields
  let status ← required asStatus "status" fields
  let supervisorPid ← defaulted asU32 "supervisor_pid" fields
  let childPid ← defaulted asU32 "child_pid" fields
  let supervisorStartTime ← defaulted asU64 "supervisor_start_time" fields
  let childStartTime ← defaulted asU64 "child_start_time" fields
  let generation ← orDefault asU64 0 "generation" fields
  let rows ← orDefault asU16 (UInt16.ofNat screenRows) "rows" fields
  let cols ← orDefault asU16 (UInt16.ofNat screenCols) "cols" fields
  let createdAtUnix ← required asU64 "created_at_unix" fields
  let updatedAtUnix ← required asU64 "updated_at_unix" fields
  let exitStatus ← defaulted asText "exit_status" fields
  let exitCode ← defaulted asU32 "exit_code" fields
  return ⟨name, cwd, command, status, supervisorPid, childPid, supervisorStartTime, childStartTime,
    generation, rows, cols, createdAtUnix, updatedAtUnix, exitStatus, exitCode⟩

/-- No field of a record is there twice. -/
def Distinct (fields : Fields) : Prop :=
  ((fields.map Prod.fst).filter fun key => key ∈ keys.map String.toList).Nodup

instance (fields : Fields) : Decidable (Distinct fields) :=
  inferInstanceAs (Decidable (List.Nodup _))

/-- The record without some of its fields. -/
def without (m : StoredMetadata) (omitted : List String) : StoredMetadata :=
  { m with
    supervisorPid := if "supervisor_pid" ∈ omitted then none else m.supervisorPid
    childPid := if "child_pid" ∈ omitted then none else m.childPid
    supervisorStartTime := if "supervisor_start_time" ∈ omitted then none else m.supervisorStartTime
    childStartTime := if "child_start_time" ∈ omitted then none else m.childStartTime
    generation := if "generation" ∈ omitted then 0 else m.generation
    rows := if "rows" ∈ omitted then (UInt16.ofNat screenRows) else m.rows
    cols := if "cols" ∈ omitted then (UInt16.ofNat screenCols) else m.cols
    exitStatus := if "exit_status" ∈ omitted then none else m.exitStatus
    exitCode := if "exit_code" ∈ omitted then none else m.exitCode }

/-- A 32-bit number is read back from its JSON number. -/
@[simp] theorem asU32_natural (n : UInt32) : asU32 (natural n.toNat) = some n := by
  have hlt : n.toNat < UInt32.size := n.toNat_lt
  simp [asU32, natural, hlt]

/-- A 64-bit number is read back from its JSON number. -/
@[simp] theorem asU64_natural (n : UInt64) : asU64 (natural n.toNat) = some n :=
  asUsize_natural n

/-- A status is read back from the name serde gives it. -/
@[simp] theorem asStatus_snakeCase (status : SessionStatus) :
    asStatus (text status.snakeCase) = some status := by
  cases status <;> decide

/-- A number is never taken for an absent optional field. -/
theorem natural_ne_null (n : ℕ) : natural n ≠ .null := by
  intro h
  cases h

/-- A text is never taken for an absent optional field. -/
theorem text_ne_null (s : String) : text s ≠ .null := by
  intro h
  cases h

/-! ## Finding fields -/

section Finding

variable {m : StoredMetadata} {omitted : List String} {fields unknown : Fields} {key : String}
  {v : Value}

/-- The fields of a record file that lacks some of them, has others that no record has, and
has them in any order. -/
structure Variant (m : StoredMetadata) (omitted : List String) (unknown fields : Fields) :
    Prop where
  optional : ∀ key ∈ omitted, key ∈ omissible
  foreign : ∀ f ∈ unknown, f.1 ∉ keys.map String.toList
  perm : fields.Perm
    ((m.fields.filter fun f => f.1 ∉ omitted.map String.toList) ++ unknown)

/-- The fields of a record are written under the struct's own names, in their order. -/
theorem keys_fields (m : StoredMetadata) : m.fields.map Prod.fst = keys.map String.toList := rfl

/-- No two fields share a name, so a field is found under its name. -/
theorem nodup_keys : (keys.map String.toList).Nodup := by decide

/-- A field is found if it is there, and no other one has its name. -/
theorem find_of_mem (hmem : (key.toList, v) ∈ fields)
    (hunique : ∀ v', (key.toList, v') ∈ fields → v' = v) : find key fields = some v := by
  cases hfind : find key fields with
  | none =>
    have hnone := List.lookup_eq_none_iff.mp hfind _ hmem
    simp at hnone
  | some v' =>
    obtain ⟨l₁, l₂, hsplit, -⟩ := List.lookup_eq_some_iff.mp hfind
    have hmem' : (key.toList, v') ∈ fields := by simp [hsplit]
    rw [hunique v' hmem']

/-- A record has each field once. -/
theorem fields_unique {v' : Value} (h : (key.toList, v) ∈ m.fields)
    (h' : (key.toList, v') ∈ m.fields) : v' = v := by
  have hnodup : (m.fields.map Prod.fst).Nodup := nodup_keys
  have hpairs := List.inj_on_of_nodup_map hnodup h' h rfl
  exact congrArg Prod.snd hpairs

/-- In a variant, a field is found unless it was omitted. -/
theorem Variant.find (h : Variant m omitted unknown fields) (hkey : key ∈ keys) :
    find key fields = if key ∈ omitted then none else DaemonRequest.find key m.fields := by
  have hmem : ∀ v, (key.toList, v) ∈ fields ↔ (key.toList, v) ∈ m.fields ∧ key ∉ omitted := by
    intro v
    rw [h.perm.mem_iff, List.mem_append, List.mem_filter]
    have hunknown : (key.toList, v) ∉ unknown := fun hin =>
      h.foreign _ hin (List.mem_map_of_mem hkey)
    simp [hunknown, String.toList_inj]
  split
  · next homitted =>
    refine List.lookup_eq_none_iff.mpr fun f hf => ?_
    have hne : key.toList ≠ f.1 := by
      intro heq
      have hf' : (key.toList, f.2) ∈ fields := by
        rw [heq]
        exact hf
      exact ((hmem f.2).mp hf').2 homitted
    simpa using hne
  · next hkept =>
    have hin : ∃ f ∈ m.fields, f.1 = key.toList := by
      have hkeys : key.toList ∈ m.fields.map Prod.fst := by
        rw [keys_fields]
        exact List.mem_map_of_mem hkey
      exact List.mem_map.mp hkeys
    obtain ⟨⟨_, v⟩, hf, rfl⟩ := hin
    rw [find_of_mem hf fun v' hv' => fields_unique hf hv']
    exact find_of_mem ((hmem v).mpr ⟨hf, hkept⟩) fun v' hv' => fields_unique hf ((hmem v').mp hv').1

/-- The fields of a variant that records know are different. -/
theorem Variant.distinct (h : Variant m omitted unknown fields) : Distinct fields := by
  have hperm := (h.perm.map Prod.fst).filter fun key => key ∈ keys.map String.toList
  refine hperm.nodup_iff.mpr ?_
  rw [List.map_append, List.filter_append]
  have hunknown : (unknown.map Prod.fst).filter
      (fun key => decide (key ∈ keys.map String.toList)) = [] := by
    refine List.filter_eq_nil_iff.mpr fun key hkey => ?_
    obtain ⟨f, hf, rfl⟩ := List.mem_map.mp hkey
    simpa using h.foreign f hf
  rw [hunknown, List.append_nil]
  have hkept : ((m.fields.filter fun f => f.1 ∉ omitted.map String.toList).map Prod.fst).Sublist
      (m.fields.map Prod.fst) := List.filter_sublist.map Prod.fst
  exact (nodup_keys.sublist hkept).filter _

/-- A field that no variant lacks. -/
theorem Variant.required {α : Type} (f : Value → Option α) (h : Variant m omitted unknown fields)
    (hkey : key ∈ keys) (hneeded : key ∉ omissible) :
    required f key fields = DaemonRequest.required f key m.fields := by
  have hkept : key ∉ omitted := fun homitted => hneeded (h.optional key homitted)
  unfold DaemonRequest.required
  rw [h.find hkey, if_neg hkept]

/-- A field of an `Option` type, in a variant. -/
theorem Variant.defaulted {α : Type} {f : Value → Option α} {x : Option α}
    (h : Variant m omitted unknown fields) (hkey : key ∈ keys)
    (hx : defaulted f key m.fields = some x) :
    defaulted f key fields = some (if key ∈ omitted then none else x) := by
  unfold DaemonRequest.defaulted at hx ⊢
  rw [h.find hkey]
  by_cases homitted : key ∈ omitted
  · rw [if_pos homitted, if_pos homitted]
  · rw [if_neg homitted, if_neg homitted]
    exact hx

/-- A field with a default, in a variant. -/
theorem Variant.orDefault {α : Type} {f : Value → Option α} {default x : α}
    (h : Variant m omitted unknown fields) (hkey : key ∈ keys)
    (hx : orDefault f default key m.fields = some x) :
    orDefault f default key fields = some (if key ∈ omitted then default else x) := by
  unfold StoredMetadata.orDefault at hx ⊢
  rw [h.find hkey]
  by_cases homitted : key ∈ omitted
  · rw [if_pos homitted, if_pos homitted]
  · rw [if_neg homitted, if_neg homitted]
    exact hx

end Finding

/-- A variant of a record is decoded to the record, with the default of what it lacks. -/
theorem Variant.ofFields {m : StoredMetadata} {omitted : List String} {fields unknown : Fields}
    (h : Variant m omitted unknown fields) : ofFields fields = some (m.without omitted) := by
  have hfound : ∀ {key : String} {v : Value}, field key v ∈ m.fields →
      DaemonRequest.find key m.fields = some v := fun hmem =>
    find_of_mem hmem fun _ hmem' => fields_unique hmem hmem'
  have hneeded : ∀ {α : Type} {f : Value → Option α} {key : String} {v : Value} {x : α},
      field key v ∈ m.fields → f v = some x → DaemonRequest.required f key m.fields = some x := by
    intro α f key v x hmem hx
    rw [DaemonRequest.required, hfound hmem]
    exact hx
  have hdefault : ∀ {α : Type} {f : Value → Option α} {key : String} {v : Value} {x default : α},
      field key v ∈ m.fields → f v = some x →
        StoredMetadata.orDefault f default key m.fields = some x := by
    intro α f key v x default hmem hx
    rw [StoredMetadata.orDefault, hfound hmem]
    exact hx
  have hname : DaemonRequest.required asText "name" m.fields = some m.name :=
    hneeded (by simp [StoredMetadata.fields]) (asText_text _)
  have hcwd : DaemonRequest.required asText "cwd" m.fields = some m.cwd :=
    hneeded (by simp [StoredMetadata.fields]) (asText_text _)
  have hcommand : DaemonRequest.required asTexts "command" m.fields = some m.command :=
    hneeded (by simp [StoredMetadata.fields]) (asTexts_array _)
  have hstatus : DaemonRequest.required asStatus "status" m.fields = some m.status :=
    hneeded (by simp [StoredMetadata.fields]) (asStatus_snakeCase _)
  have hcreated : DaemonRequest.required asU64 "created_at_unix" m.fields =
      some m.createdAtUnix :=
    hneeded (by simp [StoredMetadata.fields]) (asU64_natural _)
  have hupdated : DaemonRequest.required asU64 "updated_at_unix" m.fields =
      some m.updatedAtUnix :=
    hneeded (by simp [StoredMetadata.fields]) (asU64_natural _)
  have hgeneration : StoredMetadata.orDefault asU64 0 "generation" m.fields =
      some m.generation :=
    hdefault (by simp [StoredMetadata.fields]) (asU64_natural _)
  have hrows : StoredMetadata.orDefault asU16 (UInt16.ofNat screenRows) "rows" m.fields =
      some m.rows :=
    hdefault (by simp [StoredMetadata.fields]) (asU16_natural _)
  have hcols : StoredMetadata.orDefault asU16 (UInt16.ofNat screenCols) "cols" m.fields =
      some m.cols :=
    hdefault (by simp [StoredMetadata.fields]) (asU16_natural _)
  have hsupervisor : DaemonRequest.defaulted asU32 "supervisor_pid" m.fields =
      some m.supervisorPid :=
    defaulted_optional (hfound (by simp [StoredMetadata.fields])) asU32_natural
      fun _ => natural_ne_null _
  have hchild : DaemonRequest.defaulted asU32 "child_pid" m.fields = some m.childPid :=
    defaulted_optional (hfound (by simp [StoredMetadata.fields])) asU32_natural
      fun _ => natural_ne_null _
  have hsupervisorStart : DaemonRequest.defaulted asU64 "supervisor_start_time" m.fields =
      some m.supervisorStartTime :=
    defaulted_optional (hfound (by simp [StoredMetadata.fields])) asU64_natural
      fun _ => natural_ne_null _
  have hchildStart : DaemonRequest.defaulted asU64 "child_start_time" m.fields =
      some m.childStartTime :=
    defaulted_optional (hfound (by simp [StoredMetadata.fields])) asU64_natural
      fun _ => natural_ne_null _
  have hexitStatus : DaemonRequest.defaulted asText "exit_status" m.fields = some m.exitStatus :=
    defaulted_optional (hfound (by simp [StoredMetadata.fields])) asText_text text_ne_null
  have hexitCode : DaemonRequest.defaulted asU32 "exit_code" m.fields = some m.exitCode :=
    defaulted_optional (hfound (by simp [StoredMetadata.fields])) asU32_natural
      fun _ => natural_ne_null _
  unfold StoredMetadata.ofFields
  rw [h.required asText (by decide) (by decide), hname,
    h.required asText (by decide) (by decide), hcwd,
    h.required asTexts (by decide) (by decide), hcommand,
    h.required asStatus (by decide) (by decide), hstatus,
    h.defaulted (by decide) hsupervisor, h.defaulted (by decide) hchild,
    h.defaulted (by decide) hsupervisorStart, h.defaulted (by decide) hchildStart,
    h.orDefault (by decide) hgeneration, h.orDefault (by decide) hrows,
    h.orDefault (by decide) hcols, h.required asU64 (by decide) (by decide), hcreated,
    h.required asU64 (by decide) (by decide), hupdated,
    h.defaulted (by decide) hexitStatus, h.defaulted (by decide) hexitCode]
  rfl

/-- A field that was required was found. -/
theorem isSome_find {α : Type} {f : Value → Option α} {key : String} {fields : Fields} {x : α}
    (h : DaemonRequest.required f key fields = some x) : (find key fields).isSome = true := by
  obtain ⟨v, hv, -⟩ := Option.bind_eq_some_iff.mp h
  rw [hv]
  rfl

/-- An object is decoded only if it has all fields that may not be missing. -/
theorem needed_of_ofFields {m : StoredMetadata} {fields : Fields} {key : String}
    (h : ofFields fields = some m) (hkey : key ∈ keys) (hneeded : key ∉ omissible) :
    (find key fields).isSome = true := by
  have hkeys : key ∈ ["name", "cwd", "command", "status", "created_at_unix", "updated_at_unix"] := by
    simp only [keys, omissible, List.mem_cons, List.not_mem_nil, or_false, not_or] at hkey hneeded ⊢
    grind
  unfold ofFields at h
  obtain ⟨_, hname, h⟩ := Option.bind_eq_some_iff.mp h
  obtain ⟨_, hcwd, h⟩ := Option.bind_eq_some_iff.mp h
  obtain ⟨_, hcommand, h⟩ := Option.bind_eq_some_iff.mp h
  obtain ⟨_, hstatus, h⟩ := Option.bind_eq_some_iff.mp h
  obtain ⟨_, -, h⟩ := Option.bind_eq_some_iff.mp h
  obtain ⟨_, -, h⟩ := Option.bind_eq_some_iff.mp h
  obtain ⟨_, -, h⟩ := Option.bind_eq_some_iff.mp h
  obtain ⟨_, -, h⟩ := Option.bind_eq_some_iff.mp h
  obtain ⟨_, -, h⟩ := Option.bind_eq_some_iff.mp h
  obtain ⟨_, -, h⟩ := Option.bind_eq_some_iff.mp h
  obtain ⟨_, -, h⟩ := Option.bind_eq_some_iff.mp h
  obtain ⟨_, hcreated, h⟩ := Option.bind_eq_some_iff.mp h
  obtain ⟨_, hupdated, h⟩ := Option.bind_eq_some_iff.mp h
  simp only [List.mem_cons, List.not_mem_nil, or_false] at hkeys
  rcases hkeys with rfl | rfl | rfl | rfl | rfl | rfl
  · exact isSome_find hname
  · exact isSome_find hcwd
  · exact isSome_find hcommand
  · exact isSome_find hstatus
  · exact isSome_find hcreated
  · exact isSome_find hupdated

/-- The file that a record is written as is a variant of the record. -/
theorem variant_fields (m : StoredMetadata) : Variant m [] [] m.fields where
  optional := nofun
  foreign := nofun
  perm := by simp

end StoredMetadata

/-! ## The file -/

/-- The derived implementations, over a library that follows RFC 8259. -/
structure SerdeMetadata (toStringPretty : StoredMetadata → List Char)
    (fromStr : List Char → Option StoredMetadata) : Prop where
  /-- A record is written as its object. -/
  writes : ∀ m, IsValue Blank (.object m.fields) (toStringPretty m)
  /-- An object is read as the derived implementation decodes it. -/
  reads : ∀ fields text, StoredMetadata.Distinct fields → IsText (.object fields) text →
    fromStr text = StoredMetadata.ofFields fields
  /-- An object of which only the front is there is not read. -/
  rejects : ∀ fields text rest, IsText (.object fields) (text ++ rest) → (∀ v, ¬IsText v text) →
    fromStr text = none

/-- The bytes that `save_metadata` writes at some time. -/
def savedBytes (toStringPretty : StoredMetadata → List Char) (now : UInt64) (m : StoredMetadata) :
    List UInt8 :=
  encode (toStringPretty { m with updatedAtUnix := now })

/-- What `load_metadata` makes of the bytes of a file: `read_to_string` needs UTF-8. -/
def loadedRecord (fromStr : List Char → Option StoredMetadata) (bytes : List UInt8) :
    Option StoredMetadata :=
  (decode? bytes).bind fromStr

section File

variable {toStringPretty : StoredMetadata → List Char}
  {fromStr : List Char → Option StoredMetadata} {m : StoredMetadata} {omitted : List String}
  {fields unknown : Fields} {text : List Char}

/-- The text of a variant is decoded like the variant. -/
theorem SerdeMetadata.loaded_variant (h : SerdeMetadata toStringPretty fromStr)
    (hvariant : m.Variant omitted unknown fields) (htext : IsText (.object fields) text) :
    loadedRecord fromStr (encode text) = some (m.without omitted) := by
  rw [loadedRecord, decode?_encode, Option.bind_some, h.reads _ _ hvariant.distinct htext]
  exact hvariant.ofFields

/-- What was saved is loaded. -/
theorem SerdeMetadata.loaded_saved (h : SerdeMetadata toStringPretty fromStr) (now : UInt64)
    (m : StoredMetadata) : loadedRecord fromStr (savedBytes toStringPretty now m) =
      some { m with updatedAtUnix := now } := by
  have htext := IsElement.mk blank_nil (h.writes { m with updatedAtUnix := now }) blank_nil
  rw [List.nil_append, List.append_nil] at htext
  exact h.loaded_variant (StoredMetadata.variant_fields _) htext

/-- The front of what was saved is not loaded. -/
theorem SerdeMetadata.loaded_front (h : SerdeMetadata toStringPretty fromStr) {now : UInt64}
    {front : List UInt8} (hfront : front <+: savedBytes toStringPretty now m)
    (hshort : front ≠ savedBytes toStringPretty now m) : loadedRecord fromStr front = none := by
  unfold loadedRecord
  cases hdecode : decode? front with
  | none => rfl
  | some chars =>
    -- The front ends between two characters, so it is the front of the text.
    obtain rfl := encode_of_decode? hdecode
    obtain ⟨rest, hrest⟩ := hfront
    obtain ⟨w, hw, -⟩ := exists_append_of_encode hrest
    have hstrict : w ≠ [] := by
      rintro rfl
      rw [List.append_nil] at hw
      exact hshort (by rw [savedBytes, hw])
    have hvalue := h.writes { m with updatedAtUnix := now }
    have htext := IsElement.mk blank_nil hvalue blank_nil
    rw [List.nil_append, List.append_nil, hw] at htext
    exact h.rejects _ chars w htext fun v => not_isText_of_prefix hvalue hw hstrict

/-- **Saved records.** A record that was saved is loaded as it was, but for its time stamp,
and a file that holds only the front of it is refused. -/
theorem saved_record_readBack (h : SerdeMetadata toStringPretty fromStr) (m : StoredMetadata)
    (now : UInt64) :
    loadedRecord fromStr (savedBytes toStringPretty now m) = some { m with updatedAtUnix := now } ∧
      ∀ front, front <+: savedBytes toStringPretty now m →
        front ≠ savedBytes toStringPretty now m → loadedRecord fromStr front = none :=
  ⟨h.loaded_saved now m, fun _ hfront hshort => h.loaded_front hfront hshort⟩

/-- A file that lacks a field without a default is refused. -/
theorem SerdeMetadata.loaded_lacking (h : SerdeMetadata toStringPretty fromStr) {key : String}
    (hkey : key ∈ StoredMetadata.keys) (hneeded : key ∉ StoredMetadata.omissible)
    (hdistinct : StoredMetadata.Distinct fields) (htext : IsText (.object fields) text)
    (hlacks : find key fields = none) : loadedRecord fromStr (encode text) = none := by
  rw [loadedRecord, decode?_encode, Option.bind_some, h.reads _ _ hdistinct htext]
  cases hread : StoredMetadata.ofFields fields with
  | none => rfl
  | some found =>
    have hfound := StoredMetadata.needed_of_ofFields hread hkey hneeded
    rw [hlacks] at hfound
    cases hfound

/-- **Records of other versions.** A record is loaded from any text of its object: whatever
the order of the fields and the white space, with fields that no record has, and without
those that may be missing, which have their defaults then. Saving what was loaded keeps it.
No text of an object that lacks another field is loaded. -/
theorem other_version_loaded (h : SerdeMetadata toStringPretty fromStr) :
    (∀ m omitted unknown fields text, StoredMetadata.Variant m omitted unknown fields →
      IsText (.object fields) text →
        loadedRecord fromStr (encode text) = some (m.without omitted) ∧
          ∀ now, loadedRecord fromStr (savedBytes toStringPretty now (m.without omitted)) =
            some { m.without omitted with updatedAtUnix := now }) ∧
      ∀ key ∈ StoredMetadata.keys, key ∉ StoredMetadata.omissible → ∀ fields text,
        StoredMetadata.Distinct fields → IsText (.object fields) text → find key fields = none →
          loadedRecord fromStr (encode text) = none := by
  constructor
  · intro m omitted unknown fields text hvariant htext
    exact ⟨h.loaded_variant hvariant htext, fun now => h.loaded_saved now _⟩
  · intro key hkey hneeded fields text hdistinct htext hlacks
    exact h.loaded_lacking hkey hneeded hdistinct htext hlacks

end File

/-- A library that prints and reads as the grammar says. -/
def printRecord (m : StoredMetadata) : List Char := pretty 0 (.object m.fields)

/-- Its reader, over the derived implementation. -/
def readRecord (text : List Char) : Option StoredMetadata :=
  match Json.read text with
  | some (.object fields) => if StoredMetadata.Distinct fields then StoredMetadata.ofFields fields
    else none
  | _ => none

/-- The printer and the reader satisfy what the claims assume of serde: a record is read back, and
no strict front of it is accepted. -/
theorem serdeMetadata : SerdeMetadata printRecord readRecord where
  writes m := isValue_pretty 0 (.object m.fields)
  reads fields text hdistinct htext := by
    rw [readRecord, read_of_isText htext]
    exact if_pos hdistinct
  rejects _ text _ _ hnone := by
    unfold readRecord
    split
    · next hread => exact absurd (isText_of_read hread) (hnone _)
    · rfl

/-- A record of a run with an exit status that needs escapes. -/
def demoRecord : StoredMetadata where
  name := "demo"
  cwd := "/tmp"
  command := ["sh", "-c", "echo \"a\tb\""]
  status := .stopped
  supervisorPid := some 4
  childPid := none
  supervisorStartTime := some 18446744073709551615
  childStartTime := none
  generation := 3
  rows := 24
  cols := 80
  createdAtUnix := 100
  updatedAtUnix := 100
  exitStatus := some "killed\n"
  exitCode := some 137

/-- The record is read back, and not without its last brace. -/
theorem saved_record_readBack_demo :
    loadedRecord readRecord (savedBytes printRecord 105 demoRecord) =
        some { demoRecord with updatedAtUnix := 105 } ∧
      loadedRecord readRecord (savedBytes printRecord 105 demoRecord).dropLast = none := by
  obtain ⟨hwhole, hfront⟩ := saved_record_readBack serdeMetadata demoRecord 105
  exact ⟨hwhole, hfront _ (List.dropLast_prefix _) (by decide +kernel)⟩

/-- A field that no record has. -/
def labelField : Fields := [DaemonRequest.field "label" (.array [.null])]

/-- A file of an older program, which knows neither generations nor geometry. -/
def legacyFields : Fields :=
  (labelField ++ demoRecord.fields.filter fun f =>
    f.1 ∉ ["generation", "rows", "cols"].map String.toList).reverse

/-- The older record has the defaults of what it lacks, and no record lacks its name. -/
theorem other_version_loaded_legacy :
    loadedRecord readRecord (encode (pretty 0 (.object legacyFields))) =
        some { demoRecord with generation := 0, rows := 40, cols := 140 } ∧
      loadedRecord readRecord (encode (pretty 0 (.object labelField))) = none := by
  obtain ⟨hloads, hrefuses⟩ := other_version_loaded serdeMetadata
  have hvariant : demoRecord.Variant ["generation", "rows", "cols"] labelField legacyFields := by
    refine ⟨by decide, by decide, ?_⟩
    exact (List.reverse_perm _).trans List.perm_append_comm
  exact ⟨(hloads demoRecord _ _ _ _ hvariant (isText_pretty _)).1,
    hrefuses "name" (by decide) (by decide) _ _ (by decide) (isText_pretty _) rfl⟩

/-! ## A register of records -/

open Concurrency Storage

/-- What a call of `save_metadata` saves. -/
structure Saving where
  record : StoredMetadata
  /-- `now_unix`, at the time of the call. -/
  now : UInt64

/-- The record with the time stamp that it is saved with. -/
def Saving.stamped (saving : Saving) : StoredMetadata :=
  { saving.record with updatedAtUnix := saving.now }

/-- Every write of the file is one of these calls. -/
def SavesRecords (toStringPretty : StoredMetadata → List Char) (job : ℕ → Job)
    (saving : ℕ → Saving) : Prop :=
  ∀ i process contents, job i = .write process contents →
    contents = savedBytes toStringPretty (saving i).now (saving i).record

section Register

variable {toStringPretty : StoredMetadata → List Char}
  {fromStr : List Char → Option StoredMetadata} {target : Target} {job : ℕ → Job}
  {fs : FileSystem FileName} {saving : ℕ → Saving}
  {s t s' t' : Config StoreAct StoreAct.Response StoreResult Machine} {j k : ℕ}

/-- What a read of a file returned that was not there at first is the record of a call. -/
theorem Linearized.record (h : Linearized target job fs k s t)
    (hserde : SerdeMetadata toStringPretty fromStr)
    (hsaves : SavesRecords toStringPretty job saving) (hnew : fs.read target.fileName = none)
    {process : ℕ} {bytes : List UInt8} (hjob : job k = .read process)
    (hdone : t.thread k = .done (.read bytes)) :
    ∃ n i : ℕ, s.world.replaced.length ≤ n + 1 ∧ n < t.world.replaced.length ∧
      t.world.replaced[n]? = some i ∧ loadedRecord fromStr bytes = some (saving i).stamped := by
  obtain ⟨count, hfirst, hcount, hlatest⟩ := h.read process bytes hjob hdone
  cases count with
  | zero =>
    rw [List.take_zero] at hlatest
    cases hnew.symm.trans hlatest
  | succ n =>
    have hn : n < t.world.replaced.length := hcount
    have hlast : (t.world.replaced.take (n + 1)).getLast? = some t.world.replaced[n] := by
      rw [List.getLast?_eq_getElem?, List.length_take, Nat.min_eq_left hcount,
        List.getElem?_take_of_lt (by omega)]
      exact List.getElem?_eq_getElem hn
    rw [latest, hlast] at hlatest
    obtain ⟨process', contents, hwrite⟩ := h.writes _ (List.getElem_mem hn)
    have hbytes : contents = bytes := by
      have hcontents := Option.some.inj hlatest
      rwa [hwrite] at hcontents
    refine ⟨n, t.world.replaced[n], hfirst, hn, List.getElem?_eq_getElem hn, ?_⟩
    rw [← hbytes, hsaves _ _ _ hwrite]
    exact hserde.loaded_saved _ _

/-- **A register of records.** If a call begins when another one has ended, and loads the
record, then what it loads was saved by a call; and the other call, if it loaded a record or
saved one, did not load or save a later one. -/
theorem records_in_order (hserde : SerdeMetadata toStringPretty fromStr)
    (hsaves : SavesRecords toStringPretty job saving) (hnew : fs.read target.fileName = none)
    (hs : (storage target job).Reaches (NumbersLeft job) (storageStart target job fs) s)
    (ht : (storage target job).Reaches (NumbersLeft job) s t)
    (hs' : (storage target job).Reaches (NumbersLeft job) t s')
    (ht' : (storage target job).Reaches (NumbersLeft job) s' t')
    (hj : s.thread j = (job j).program target) (hk : s'.thread k = (job k).program target)
    {process : ℕ} {bytes : List UInt8} (hjob : job k = .read process)
    (hdone : t'.thread k = .done (.read bytes)) :
    ∃ n i : ℕ, t'.world.replaced[n]? = some i ∧
      loadedRecord fromStr bytes = some (saving i).stamped ∧
      (∀ earlier before, job j = .read earlier → t.thread j = .done (.read before) →
        ∃ m ≤ n, ∃ i : ℕ, t'.world.replaced[m]? = some i ∧
          loadedRecord fromStr before = some (saving i).stamped) ∧
      (t.thread j = .done (.wrote (.ok ())) → ∃ m ≤ n, t'.world.replaced[m]? = some j) := by
  have hfirst := linearized hs ht hj
  have hsecond := linearized (hs.trans (ht.trans hs')) ht' hk
  have hbetween : t.world.replaced <+: s'.world.replaced := replaced_grows (hs.trans ht) hs'
  have hgrows : t.world.replaced <+: t'.world.replaced := hbetween.trans hsecond.grows
  obtain ⟨n, i, hsince, hn, hi, hrecord⟩ := hsecond.record hserde hsaves hnew hjob hdone
  have hkept : ∀ {m i : ℕ}, t.world.replaced[m]? = some i →
      m ≤ n ∧ t'.world.replaced[m]? = some i := by
    intro m i hm
    obtain ⟨hlt, -⟩ := List.getElem?_eq_some_iff.mp hm
    have hlength := hbetween.length_le
    obtain ⟨rest, hrest⟩ := hgrows
    refine ⟨by omega, ?_⟩
    rw [← hrest, List.getElem?_append_left hlt]
    exact hm
  refine ⟨n, i, hi, hrecord, fun earlier before hearlier hbefore => ?_, fun hwrote => ?_⟩
  · obtain ⟨m, i', -, -, hi', hrecord'⟩ := hfirst.record hserde hsaves hnew hearlier hbefore
    obtain ⟨hm, hkept'⟩ := hkept hi'
    exact ⟨m, hm, i', hkept', hrecord'⟩
  · obtain ⟨m, -, hm⟩ := hfirst.wrote hwrote
    exact ⟨m, hkept hm⟩

end Register

/-- Two records of a session are saved, and the file is read. -/
def demoSaving : ℕ → Saving
  | 0 => ⟨demoRecord, 101⟩
  | _ => ⟨{ demoRecord with status := .running, exitStatus := none, exitCode := none }, 102⟩

/-- Two calls of `save_metadata`, and two of `load_metadata`. -/
def recordJobs : ℕ → Job
  | 0 => .write 0 (savedBytes printRecord 101 (demoSaving 0).record)
  | 1 => .write 1 (savedBytes printRecord 102 (demoSaving 1).record)
  | _ => .read 2

/-- The first record is saved, and loaded while the second one is saved. -/
def firstLoad : List (Move StoreChoice ProcessEvent) :=
  .disturb (.start 0 7) :: storeSteps 0 8 { count := 999 } ++
    .disturb (.start 1 8) :: .disturb (.start 2 9) :: storeSteps 2 1 {} ++
    storeSteps 1 8 { count := 999 } ++ storeSteps 2 1 { count := 999 } ++ [.loop 2] ++
    storeSteps 2 1 {}

/-- The record is loaded again. -/
def secondLoad : List (Move StoreChoice ProcessEvent) :=
  storeSteps 3 2 { count := 999 } ++ [.loop 3] ++ storeSteps 3 1 {}

/-- What a thread has read. -/
def readOf (i : ℕ) (s : Config StoreAct StoreAct.Response StoreResult Machine) :
    Option (List UInt8) :=
  match s.thread i with
  | .done (.read bytes) => some bytes
  | _ => none

/-- What `readOf` reports is what the thread has read. -/
theorem eq_of_readOf {i : ℕ} {s : Config StoreAct StoreAct.Response StoreResult Machine}
    {bytes : List UInt8} (h : readOf i s = some bytes) : s.thread i = .done (.read bytes) := by
  unfold readOf at h
  split at h
  · next hdone =>
    rw [hdone, Option.some.inj h]
  · cases h

/-- Every writer of the example writes a printed record. -/
theorem savesRecords_demo : SavesRecords printRecord recordJobs demoSaving := by
  intro i process contents hjob
  match i with
  | 0 =>
    cases hjob
    rfl
  | 1 =>
    cases hjob
    rfl
  | i + 2 => cases hjob

/-- The second load gets a record that is not earlier than that of the first one. -/
theorem records_in_order_overtaken :
    ∃ (order : List ℕ) (bytes bytes' : List UInt8) (m n i j : ℕ), m ≤ n ∧
      order[m]? = some i ∧ loadedRecord readRecord bytes = some (demoSaving i).stamped ∧
      order[n]? = some j ∧ loadedRecord readRecord bytes' = some (demoSaving j).stamped := by
  obtain ⟨t, ht, hthread, hcheck⟩ := System.exists_aside_of_trace (storage demoTarget recordJobs)
    (numbersLeft recordJobs) 3 firstLoad (storageStart demoTarget recordJobs emptyDirectory) nofun
    (fun t => (readOf 2 t).isSome && ((storage demoTarget recordJobs).exec (numbersLeft recordJobs)
      secondLoad t).any fun t' => (readOf 3 t').isSome)
    (numbersLeft_sound recordJobs) (by decide +kernel)
  obtain ⟨hread, hcheck'⟩ := (Bool.and_eq_true _ _).mp hcheck
  obtain ⟨t', hexec, hread'⟩ := (Option.any_eq_true _ _).mp hcheck'
  have ht' := (System.reaches_of_exec hexec).mono (numbersLeft_sound recordJobs)
  obtain ⟨bytes, hbytes⟩ := Option.isSome_iff_exists.mp hread
  obtain ⟨bytes', hbytes'⟩ := Option.isSome_iff_exists.mp hread'
  obtain ⟨n, j, hj, hrecord', hearlier, -⟩ := records_in_order serdeMetadata savesRecords_demo rfl
    .refl ht .refl ht' (rfl : (storageStart _ _ _).thread 2 = _) hthread rfl (eq_of_readOf hbytes')
  obtain ⟨m, hm, i, hi, hrecord⟩ := hearlier 2 bytes rfl (eq_of_readOf hbytes)
  exact ⟨_, bytes, bytes', m, n, i, j, hm, hi, hrecord, hj, hrecord'⟩

end IgnibyteBridge
