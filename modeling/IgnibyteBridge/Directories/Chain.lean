import IgnibyteBridge.Directories.Specs
import IgnibyteBridge.Session.Paths

/-!
# The chain of private directories

What `ensure_bridge_dir` leaves behind, from the bridge root down to its target. A path
that ends in a separator or a dot is looked up behind a symlink at its end, and only the
root can be written in that way.
-/

namespace IgnibyteBridge.Directories

open Concurrency Fallible Storage Text
open DirTree (grows_makeAll locate_of_walk)

/-! ## The property -/

/-- At the path itself lies a directory of this user that nobody else may use. -/
def Private (t : DirTree) (uid : ℕ) (p : RawPath) : Prop :=
  ∃ i, t.locate p = .ok i ∧ Owned t uid i ∧ Tight (t.inode i).mode

/-- At the path itself lies a symlink, something else that is no directory, or a
directory of somebody else. -/
def Suspect (t : DirTree) (uid : ℕ) (p : RawPath) : Prop :=
  ∃ i, t.locate p = .ok i ∧ ¬Owned t uid i

/-- At the path itself lies a symlink that leads to a directory of this user. -/
def Planted (t : DirTree) (uid : ℕ) (p : RawPath) : Prop :=
  ∃ e i, t.locate p = .ok e ∧ (t.inode e).node.isLink = true ∧ t.walk p = .ok i ∧ Owned t uid i

/-- The paths below a path, one component further each. -/
def below (p : RawPath) : List (List Char) → List RawPath
  | [] => []
  | c :: names => extended p c :: below (extended p c) names

/-- The bridge root and the components below it down to a target. -/
def chain (root : RawPath) (names : List (List Char)) : List RawPath := root :: below root names

/-- What holds after a run of `ensure_bridge_dir`. A success means that the whole chain is
private. If a component is suspect the run fails, and nothing was made beyond the way to
the root and no mode was changed but those of the components above the suspect one. -/
structure Protects (caller : Caller) (t : DirTree) (root : RawPath) (names : List (List Char))
    (result : Except String Unit) (t' : DirTree) : Prop where
  safe : result = .ok () → ∀ p ∈ chain root names, Private t' caller.euid (trimmed p)
  refused : ∀ above p rest, chain root names = above ++ p :: rest →
    Suspect (prepared caller t root) caller.euid (trimmed p) →
    result ≠ .ok () ∧
      t'.Grows (fun i => ∃ q ∈ above, (prepared caller t root).locate (trimmed q) = .ok i)
        (prepared caller t root)

/-! ## What a step keeps -/

/-- Nothing is lost, and what nobody else may use stays so. -/
structure Keeps (t t' : DirTree) : Prop where
  grows : t.Grows (fun _ => True) t'
  tight : ∀ {i}, i < t.next → Tight (t.inode i).mode → Tight (t'.inode i).mode

section Keeps

variable {caller : Caller} {refused : ℕ → Bool} {t t' t'' w : DirTree} {A : ℕ → Prop}
  {p q : RawPath} {c : List Char} {names : List (List Char)} {i uid : ℕ}

/-- A tree that is unchanged keeps everything. -/
theorem Keeps.refl (t : DirTree) : Keeps t t := ⟨DirTree.Grows.refl _ t, fun _ => id⟩

/-- Two steps keep what each of them keeps. -/
theorem Keeps.trans (h : Keeps t t') (h' : Keeps t' t'') : Keeps t t'' := by
  constructor
  · exact h.grows.trans h'.grows
  · intro i hi htight
    exact h'.tight (hi.trans_le h.grows.next_le) (h.tight hi htight)

/-- Making directories loses nothing. -/
theorem keeps_makeAll (caller : Caller) (t : DirTree) (qs : List RawPath) :
    Keeps t (t.makeAll caller.euid caller.dirMode qs) := by
  constructor
  · exact grows_makeAll _ t qs
  · intro i hi htight
    rcases (grows_makeAll (fun _ => False) t qs).mode hi with hmode | hfalse
    · rwa [hmode]
    · exact hfalse.elim

/-- A secured directory is for its owner only. -/
theorem tight_secured (t : DirTree) (i : ℕ) : Tight ((secured t i).inode i).mode := by
  unfold secured
  split_ifs with htight
  · exact htight
  · rw [DirTree.mode_setMode_self]
    decide

/-- Securing changes one mode, if that was loose. -/
theorem grows_secured (h : ¬Tight (t.inode i).mode → A i) : t.Grows A (secured t i) := by
  unfold secured
  split_ifs with htight
  · exact DirTree.Grows.refl A t
  · exact DirTree.grows_setMode (h htight)

/-- The mode that was secured may be taken back. -/
theorem secured_grows (h : ¬Tight (t.inode i).mode → A i) : (secured t i).Grows A t := by
  unfold secured
  split_ifs with htight
  · exact DirTree.Grows.refl A t
  · exact DirTree.setMode_grows (h htight)

/-- Securing loses nothing. -/
theorem keeps_secured (t : DirTree) (i : ℕ) : Keeps t (secured t i) := by
  constructor
  · exact grows_secured fun _ => trivial
  · intro j _ htight
    by_cases hj : j = i
    · rw [hj]
      exact tight_secured t i
    · unfold secured
      split_ifs
      · exact htight
      · rwa [DirTree.mode_setMode_of_ne hj]

/-- A directory keeps its owner. -/
theorem Owned.keeps (h : Owned t uid i) (hi : i < t.next) (hkeeps : t.Grows A t') :
    Owned t' uid i := by
  constructor
  · rw [hkeeps.isDir_eq hi]
    exact h.isDir
  · rw [hkeeps.uid hi]
    exact h.uid_eq

/-- A private directory stays private. -/
theorem Private.keeps (h : Private t uid p) (hkeeps : Keeps t t') : Private t' uid p := by
  obtain ⟨i, hi, howned, htight⟩ := h
  have hlt : i < t.next := DirTree.locate_lt hi
  exact ⟨i, hkeeps.grows.locate_ok hi, howned.keeps hlt hkeeps.grows, hkeeps.tight hlt htight⟩

/-- Whatever happens, one step keeps the tree, and its success leaves a private directory. -/
theorem ends_ensurePrivateDir_keeps (t : DirTree) (p : RawPath) :
    Ends caller refused (fun _ t' => Keeps t t' ∧ Private t' caller.euid p)
      (fun _ t' => Keeps t t') (ensurePrivateDir p) t := by
  have hprepared : Keeps t (prepared caller t p) := keeps_makeAll caller t _
  apply (ends_ensurePrivateDir t p).mono
  · rintro _ _ ⟨i, hi, howned, rfl⟩
    have hsecured := keeps_secured (prepared caller t p) i
    refine ⟨hprepared.trans hsecured, i, hsecured.grows.locate_ok hi, ?_, tight_secured _ i⟩
    exact howned.keeps (DirTree.locate_lt hi) hsecured.grows
  · rintro _ _ ⟨⟨qs, -, rfl⟩, -⟩
    exact keeps_makeAll caller t qs

/-- A success leaves every component private. -/
theorem ends_ensureBelow_keeps (t : DirTree) (p : RawPath) (names : List (List Char)) :
    Ends caller refused (fun _ t' => Keeps t t' ∧ ∀ q ∈ below p names, Private t' caller.euid q)
      (fun _ t' => Keeps t t') (ensureBelow p names) t := by
  induction names generalizing p t with
  | nil => exact ends_pure ⟨Keeps.refl t, fun q hq => by cases hq⟩
  | cons c names ih =>
    apply ends_bind
    apply (ends_ensurePrivateDir_keeps t (extended p c)).mono
    · rintro _ t₁ ⟨hkeeps, hprivate⟩
      apply (ih t₁ (extended p c)).mono
      · rintro _ t' ⟨hkeeps', hrest⟩
        refine ⟨hkeeps.trans hkeeps', fun q hq => ?_⟩
        rcases List.mem_cons.mp hq with rfl | hq
        · exact hprivate.keeps hkeeps'
        · exact hrest q hq
      · exact fun _ t' hkeeps' => hkeeps.trans hkeeps'
    · exact fun _ _ => id

end Keeps

/-! ## The paths below the root -/

section Below

variable {p q : RawPath} {c : List Char} {names : List (List Char)}

/-- A longer path ends with the new component. -/
theorem extended_eq (p : RawPath) (c : List Char) : ∃ base, extended p c = base ++ [c] := by
  unfold extended
  split_ifs
  · exact ⟨p.dropLast, rfl⟩
  · exact ⟨p, rfl⟩

/-- The last component of a longer path is the new one. -/
theorem getLast?_extended (p : RawPath) (c : List Char) : (extended p c).getLast? = some c := by
  obtain ⟨base, hbase⟩ := extended_eq p c
  rw [hbase, List.getLast?_concat]

/-- A path that ends with a name has nothing to trim. -/
theorem trimmed_below (hnames : ∀ c ∈ names, IsName c) (hq : q ∈ below p names) :
    trimmed q = q := by
  induction names generalizing p with
  | nil => cases hq
  | cons c names ih =>
    rcases List.mem_cons.mp hq with rfl | hq
    · obtain ⟨base, hbase⟩ := extended_eq p c
      rw [hbase]
      exact trimmed_append_name (hnames c List.mem_cons_self) base
    · exact ih (fun d hd => hnames d (List.mem_cons_of_mem _ hd)) hq

/-- Below a name every path is longer. -/
theorem prefix_of_mem_below (hp : p.getLast? ≠ some []) (hnames : ∀ c ∈ names, IsName c)
    (hq : q ∈ below p names) : p <+: q ∧ p ≠ q := by
  induction names generalizing p with
  | nil => cases hq
  | cons c names ih =>
    have hextended : extended p c = p ++ [c] := if_neg hp
    have hstart : p <+: extended p c := by
      rw [hextended]
      exact List.prefix_append _ _
    have hlength : (extended p c).length = p.length + 1 := by
      rw [hextended]
      exact List.length_append
    rcases List.mem_cons.mp hq with rfl | hq
    · refine ⟨hstart, fun heq => ?_⟩
      have hsame := congrArg List.length heq
      omega
    · have hlast : (extended p c).getLast? ≠ some [] := by
        rw [getLast?_extended]
        exact fun h => (hnames c List.mem_cons_self).ne_nil (Option.some.inj h)
      obtain ⟨hlonger, -⟩ := ih hlast (fun d hd => hnames d (List.mem_cons_of_mem _ hd)) hq
      refine ⟨hstart.trans hlonger, fun heq => ?_⟩
      have hle := hlonger.length_le
      have hsame := congrArg List.length heq
      omega

end Below

/-! ## A suspect component -/

section Refusal

variable {caller : Caller} {refused : ℕ → Bool} {t w : DirTree} {A : ℕ → Prop}
  {p q : RawPath} {c : List Char} {names : List (List Char)} {i : ℕ}

/-- Nothing is made on the way to something that is there. -/
theorem makeAll_of_suffix (h : t.locate p = .ok i) {qs : List RawPath}
    (hqs : qs <:+ p :: parents p) : t.makeAll caller.euid caller.dirMode qs = t := by
  have hparents : ∀ q ∈ parents p, q <+: holder p := fun q hq => prefix_holder hq
  apply DirTree.makeAll_of_locate
  intro q hq
  have hholder : holder p <+: p := ( List.dropLast_prefix _).trans (unslashed_isPrefix p)
  rcases List.mem_cons.mp (hqs.subset hq) with rfl | hq
  · exact DirTree.locate_on_way h (unslashed_isPrefix _)
  · exact DirTree.locate_on_way h
      ((unslashed_isPrefix q).trans ((hparents q hq).trans hholder))

/-- Where something lies nothing is made. -/
theorem prepared_of_locate (h : t.locate p = .ok i) : prepared caller t p = t :=
  makeAll_of_suffix h List.suffix_rfl

/-- One step on something that is there secures it, or leaves the tree as it is. -/
theorem ends_ensurePrivateDir_there (h : t.locate p = .ok i) :
    Ends caller refused (fun _ t' => Owned t caller.euid i ∧ t' = secured t i)
      (fun _ t' => t' = t ∧ (Faulty refused ∨ ¬Owned t caller.euid i))
      (ensurePrivateDir p) t := by
  apply (ends_ensurePrivateDir t p).mono
  · rw [prepared_of_locate h]
    rintro _ _ ⟨j, hj, howned, rfl⟩
    rw [h] at hj
    cases hj
    exact ⟨howned, rfl⟩
  · rw [prepared_of_locate h]
    rintro _ _ ⟨⟨qs, hqs, rfl⟩, hreason⟩
    exact ⟨makeAll_of_suffix h hqs, hreason.imp_right fun hno howned => hno ⟨i, h, howned⟩⟩

/-- A run that comes to a suspect component fails there. Until then it changes modes of
the components above only. -/
theorem ends_ensureBelow_refused {above rest : List RawPath} (hback : t.Grows A w)
    (hforth : w.Grows A t) (hnames : ∀ c ∈ names, IsName c)
    (hbelow : below p names = above ++ q :: rest) (hsuspect : Suspect w caller.euid q)
    (hloose : ∀ a ∈ above, ∀ i, w.locate a = .ok i → ¬Tight (w.inode i).mode → A i) :
    Ends caller refused (fun _ _ => False) (fun _ t' => t'.Grows A w) (ensureBelow p names) t := by
  obtain ⟨k, hk, hforeign⟩ := hsuspect
  induction names generalizing p above t with
  | nil => cases above <;> cases hbelow
  | cons c names ih =>
    apply ends_bind
    cases above with
    | nil =>
      obtain ⟨rfl, -⟩ := List.cons.inj hbelow
      apply (ends_ensurePrivateDir_there (hforth.locate_ok hk)).mono
      · rintro _ _ ⟨howned, -⟩
        exact absurd (howned.keeps (DirTree.locate_lt (hforth.locate_ok hk)) hback) hforeign
      · rintro _ _ ⟨rfl, -⟩
        exact hback
    | cons a above =>
      obtain ⟨rfl, hrest⟩ := List.cons.inj hbelow
      have hq : q ∈ below (extended p c) names := by
        rw [hrest]
        exact List.mem_append_right _ List.mem_cons_self
      have hlast : (extended p c).getLast? ≠ some [] := by
        rw [getLast?_extended]
        exact fun h => (hnames c List.mem_cons_self).ne_nil (Option.some.inj h)
      have htail : ∀ d ∈ names, IsName d := fun d hd => hnames d (List.mem_cons_of_mem _ hd)
      obtain ⟨hstart, hne⟩ := prefix_of_mem_below hlast htail hq
      obtain ⟨j, hj, -⟩ := DirTree.walk_on_way hk hstart hne
      obtain ⟨i, hi⟩ := locate_of_walk hj
      have hchange : ¬Tight (t.inode i).mode → A i := by
        intro hloose'
        rcases hforth.mode (DirTree.locate_lt hi) with hmode | hA
        · apply hloose _ List.mem_cons_self i hi
          rwa [← hmode]
        · exact hA
      apply (ends_ensurePrivateDir_there (hforth.locate_ok hi)).mono
      · rintro _ _ ⟨-, rfl⟩
        exact ih ((secured_grows hchange).trans hback) (hforth.trans (grows_secured hchange))
          htail hrest fun a ha => hloose a (List.mem_cons_of_mem _ ha)
      · rintro _ _ ⟨rfl, -⟩
        exact hback

/-- A tree that has an inode more, or another mode, has not what the first one has. -/
theorem not_grows_of_next {t₁ : DirTree} (hnext : t₁.next = w.next + 1) (hkeeps : Keeps t₁ t) :
    ¬t.Grows A w := by
  intro hgrows
  have hle := hgrows.next_le
  have hle' := hkeeps.grows.next_le
  omega

/-- A mode that was tightened has changed. -/
theorem not_grows_of_loose (hi : i < w.next) (hloose : ¬Tight (w.inode i).mode)
    (hkeeps : Keeps (secured w i) t) : ¬t.Grows (fun _ => False) w := by
  intro hgrows
  have hsecured : w.Grows (fun _ => True) (secured w i) := grows_secured fun _ => trivial
  have hlt : i < (secured w i).next := hi.trans_le hsecured.next_le
  rcases hgrows.mode (hlt.trans_le hkeeps.grows.next_le) with hmode | hfalse
  · rw [hmode] at hloose
    exact hloose (hkeeps.tight hlt (tight_secured w i))
  · exact hfalse

/-- A component that is missing below a directory is made. -/
theorem ends_createDirAll_made {t₁ : DirTree} {failure : String} {ps : List RawPath}
    (hfaulty : ¬Faulty refused) (h : w.mkdir p caller.euid caller.dirMode = .ok t₁) :
    Ends caller refused (fun _ t' => t' = t₁) (fun _ _ => False) (createDirAll failure p ps) w := by
  cases ps with
  | nil | cons parent rest =>
    apply ends_mkdir
    · intro t' hmkdir
      exact ends_pure (Except.ok.inj (hmkdir.symm.trans h))
    · intro e hmkdir
      rw [hmkdir] at h
      cases h
    · exact fun hfault => absurd hfault hfaulty

/-- A missing directory below one that is there can be made. -/
theorem mkdir_extended {e : PathError} (hdir : w.DirAt p) (hc : IsName c)
    (h : w.locate (extended p c) = .error e) :
    ∃ t₁, w.mkdir (extended p c) caller.euid caller.dirMode = .ok t₁ ∧ t₁.next = w.next + 1 := by
  obtain ⟨d, hd, hdir⟩ := hdir
  unfold extended at h ⊢
  split_ifs at h ⊢ with hslash
  · obtain ⟨base, rfl⟩ := List.getLast?_eq_some_iff.mp hslash
    rw [List.dropLast_concat] at h ⊢
    exact DirTree.mkdir_of_missing ((DirTree.walk_concat_idle rfl).mp hd).1 hdir hc h
  · exact DirTree.mkdir_of_missing hd hdir hc h

/-- Without a suspect component behind private ones a run that is not refused any call
succeeds, or it makes a directory or changes a mode. -/
theorem ends_ensureBelow_changes (hfaulty : ¬Faulty refused) (hdir : w.DirAt p)
    (hnames : ∀ c ∈ names, IsName c)
    (hopen : ¬∃ above q rest, below p names = above ++ q :: rest ∧
      (∀ a ∈ above, Private w caller.euid a) ∧ Suspect w caller.euid q) :
    Ends caller refused (fun _ _ => True) (fun _ t' => ¬t'.Grows (fun _ => False) w)
      (ensureBelow p names) w := by
  induction names generalizing p with
  | nil => exact ends_pure trivial
  | cons c names ih =>
    have hc : IsName c := hnames c List.mem_cons_self
    apply ends_bind
    cases hlocate : w.locate (extended p c) with
    | error e =>
      obtain ⟨t₁, hmkdir, hnext⟩ := mkdir_extended hdir hc hlocate
      apply ends_bind
      apply (ends_createDirAll_made hfaulty hmkdir).mono
      · rintro _ _ rfl
        apply ends_verifyPrivateDir.mono
        · rintro _ _ ⟨i, -, -, rfl⟩
          apply (ends_ensureBelow_keeps _ _ names).mono
          · exact fun _ _ _ => trivial
          · exact fun _ t' hkeeps => not_grows_of_next hnext ((keeps_secured _ i).trans hkeeps)
        · rintro _ _ ⟨rfl, -⟩
          exact not_grows_of_next hnext (Keeps.refl _)
      · exact fun _ _ => False.elim
    | ok i =>
      by_cases howned : Owned w caller.euid i
      · apply (ends_ensurePrivateDir_there hlocate).mono
        · rintro _ _ ⟨-, rfl⟩
          by_cases htight : Tight (w.inode i).mode
          · rw [show secured w i = w from if_pos htight]
            apply ih ⟨i, DirTree.walk_of_locate hlocate (DirTree.isLink_of_isDir howned.isDir),
              howned.isDir⟩ fun d hd => hnames d (List.mem_cons_of_mem _ hd)
            rintro ⟨above, q, rest, hbelow, hprivate, hsuspect⟩
            apply hopen
            have hhere : Private w caller.euid (extended p c) := ⟨i, hlocate, howned, htight⟩
            exact ⟨extended p c :: above, q, rest, congrArg _ hbelow,
              List.forall_mem_cons.mpr ⟨hhere, hprivate⟩, hsuspect⟩
          · apply (ends_ensureBelow_keeps _ _ names).mono
            · exact fun _ _ _ => trivial
            · exact fun _ t' hkeeps => not_grows_of_loose (DirTree.locate_lt hlocate) htight hkeeps
        · rintro _ _ ⟨-, hfault | hno⟩
          · exact absurd hfault hfaulty
          · exact absurd howned hno
      · exact absurd ⟨[], _, _, rfl, (fun a ha => by cases ha), i, hlocate, howned⟩ hopen

end Refusal

/-! ## The root -/

/-- A component is suspect, and all above it are private already, so that nothing has to
be changed before the run comes to it. -/
def Blocked (w : DirTree) (uid : ℕ) (root : RawPath) (names : List (List Char)) : Prop :=
  ∃ above p rest, chain root names = above ++ p :: rest ∧ (∀ q ∈ above, Private w uid q) ∧
    Suspect w uid p

/-- The root's text ends in a component, or no symlink to a directory of this user lies
there, or the run is blocked. -/
def Guarded (caller : Caller) (t : DirTree) (root : RawPath) (names : List (List Char)) : Prop :=
  trimmed root = root ∨ ¬Planted (prepared caller t root) caller.euid (trimmed root) ∨
    Blocked (prepared caller t root) caller.euid root names

/-- `ensure_bridge_dir` once it knows the root and the components below it. -/
def ensureChain (root : RawPath) (names : List (List Char)) : PathAct.Result Unit := do
  ensurePrivateDir root
  ensureBelow root names

section Root

variable {caller : Caller} {refused : ℕ → Bool} {t w : DirTree} {root p : RawPath}
  {names : List (List Char)} {i uid : ℕ}

/-- Where the root is accepted that lies at its text, it lies there without the end, too. -/
theorem locate_trimmed (h : trimmed root = root ∨ ¬Planted w uid (trimmed root))
    (hi : w.locate root = .ok i) (howned : Owned w uid i) : w.locate (trimmed root) = .ok i := by
  rcases h with hplain | hplanted
  · rwa [hplain]
  · have hwalk := DirTree.walk_trimmed
      (DirTree.walk_of_locate hi (DirTree.isLink_of_isDir howned.isDir))
    obtain ⟨e, he⟩ := locate_of_walk hwalk
    cases hlink : (w.inode e).node.isLink with
    | true => exact absurd ⟨e, i, he, hlink, hwalk, howned⟩ hplanted
    | false =>
      rw [DirTree.walk_of_locate he hlink] at hwalk
      rw [he, hwalk]

/-- A chain whose root hides no symlink is private when the run succeeds. -/
theorem ends_ensureChain_safe
    (h : trimmed root = root ∨ ¬Planted (prepared caller t root) caller.euid (trimmed root))
    (hnames : ∀ c ∈ names, IsName c) :
    Ends caller refused (fun _ t' => ∀ p ∈ chain root names, Private t' caller.euid (trimmed p))
      (fun _ _ => True) (ensureChain root names) t := by
  apply ends_bind
  apply (ends_ensurePrivateDir t root).mono
  · rintro _ _ ⟨i, hi, howned, rfl⟩
    apply (ends_ensureBelow_keeps _ root names).mono
    · rintro _ t' ⟨hkeeps, hbelow⟩ p hp
      have hsecured := keeps_secured (prepared caller t root) i
      rcases List.mem_cons.mp hp with rfl | hp
      · have hroot : Private (secured (prepared caller t p) i) caller.euid (trimmed p) :=
          ⟨i, hsecured.grows.locate_ok (locate_trimmed h hi howned),
            howned.keeps (DirTree.locate_lt hi) hsecured.grows, tight_secured _ i⟩
        exact hroot.keeps hkeeps
      · rw [trimmed_below hnames hp]
        exact hbelow p hp
    · exact fun _ _ _ => trivial
  · exact fun _ _ _ => trivial

/-- A suspect component ends the run, with the components above it secured at most. -/
theorem ends_ensureChain_refused {above rest : List RawPath}
    (h : trimmed root = root ∨ ¬Planted (prepared caller t root) caller.euid (trimmed root))
    (hnames : ∀ c ∈ names, IsName c) (hchain : chain root names = above ++ p :: rest)
    (hsuspect : Suspect (prepared caller t root) caller.euid (trimmed p)) :
    Ends caller refused (fun _ _ => False)
      (fun _ t' => t'.Grows
        (fun i => ∃ q ∈ above, (prepared caller t root).locate (trimmed q) = .ok i)
        (prepared caller t root)) (ensureChain root names) t := by
  apply ends_bind
  apply (ends_ensurePrivateDir t root).mono
  · rintro _ _ ⟨i, hi, howned, rfl⟩
    have hroot := locate_trimmed h hi howned
    cases above with
    | nil =>
      obtain ⟨rfl, -⟩ := List.cons.inj hchain
      obtain ⟨j, hj, hforeign⟩ := hsuspect
      rw [hroot] at hj
      cases hj
      exact absurd howned hforeign
    | cons a above =>
      obtain ⟨rfl, hbelow⟩ : root = a ∧ below root names = above ++ p :: rest :=
        List.cons.inj hchain
      have hmem : ∀ {q}, q ∈ above ++ p :: rest → trimmed q = q := by
        intro q hq
        rw [← hbelow] at hq
        exact trimmed_below hnames hq
      rw [hmem (List.mem_append_right _ List.mem_cons_self)] at hsuspect
      apply ends_ensureBelow_refused (secured_grows _) (grows_secured _) hnames hbelow hsuspect
      · intro a ha j hj _
        refine ⟨a, List.mem_cons_of_mem _ ha, ?_⟩
        rwa [hmem (List.mem_append_left _ ha)]
      · exact fun _ => ⟨_, List.mem_cons_self, hroot⟩
      · exact fun _ => ⟨_, List.mem_cons_self, hroot⟩
  · rintro _ _ ⟨⟨qs, hqs, rfl⟩, -⟩
    exact DirTree.makeAll_grows _ t hqs

/-- A component that blocks the way ends the run before anything is changed. -/
theorem ends_ensureChain_blocked (hnames : ∀ c ∈ names, IsName c)
    (h : Blocked (prepared caller t root) caller.euid root names) :
    Ends caller refused (fun _ _ => False)
      (fun _ t' => t'.Grows (fun _ => False) (prepared caller t root))
      (ensureChain root names) t := by
  obtain ⟨above, p, rest, hchain, hprivate, hsuspect⟩ := h
  apply ends_bind
  apply (ends_ensurePrivateDir t root).mono
  · rintro _ _ ⟨i, hi, howned, rfl⟩
    cases above with
    | nil =>
      obtain ⟨rfl, -⟩ := List.cons.inj hchain
      obtain ⟨j, hj, hforeign⟩ := hsuspect
      rw [hi] at hj
      cases hj
      exact absurd howned hforeign
    | cons a above =>
      obtain ⟨rfl, hbelow⟩ := List.cons.inj hchain
      have htight : ∀ q ∈ root :: above, ∀ j, (prepared caller t root).locate q = .ok j →
          Tight ((prepared caller t root).inode j).mode := by
        intro q hq j hj
        obtain ⟨k, hk, -, htight⟩ := hprivate q hq
        rw [hk] at hj
        cases hj
        exact htight
      rw [show secured (prepared caller t root) i = prepared caller t root from
        if_pos (htight root List.mem_cons_self i hi)]
      apply ends_ensureBelow_refused (DirTree.Grows.refl _ _) (DirTree.Grows.refl _ _) hnames
        hbelow hsuspect
      intro a ha j hj hloose
      exact hloose (htight a (List.mem_cons_of_mem _ ha) j hj)
  · rintro _ _ ⟨⟨qs, hqs, rfl⟩, -⟩
    exact DirTree.makeAll_grows _ t hqs

/-- With a separator at its end a path leads through a symlink. -/
theorem locate_of_trimmed_ne (hne : trimmed root ≠ root) (h : w.walk root = .ok i) :
    w.locate root = .ok i := by
  induction root using List.reverseRecOn with
  | nil => exact h
  | append_singleton root c _ =>
    have hc : idle c = true := by
      by_contra hc
      exact hne (List.rdropWhile_concat_neg _ _ c hc)
    obtain ⟨hwalk, hdir⟩ := (DirTree.walk_concat_idle hc).mp h
    rw [DirTree.locate_concat, hwalk]
    exact DirTree.child_idle hdir hc

/-- Behind a planted root a run that is not refused any call and not blocked succeeds, or
it changes something. -/
theorem ends_ensureChain_changes (hfaulty : ¬Faulty refused) (hne : trimmed root ≠ root)
    (hplanted : Planted (prepared caller t root) caller.euid (trimmed root))
    (hnames : ∀ c ∈ names, IsName c)
    (hopen : ¬Blocked (prepared caller t root) caller.euid root names) :
    Ends caller refused (fun _ _ => True)
      (fun _ t' => ¬t'.Grows (fun _ => False) (prepared caller t root))
      (ensureChain root names) t := by
  obtain ⟨e, i, -, -, hwalk, howned⟩ := hplanted
  have hroot : (prepared caller t root).walk root = .ok i :=
    DirTree.walk_of_trimmed hwalk howned.isDir
  have hlocate := locate_of_trimmed_ne hne hroot
  apply ends_bind
  apply (ends_ensurePrivateDir t root).mono
  · rintro _ _ ⟨j, hj, -, rfl⟩
    rw [hlocate] at hj
    cases hj
    by_cases htight : Tight ((prepared caller t root).inode i).mode
    · rw [show secured (prepared caller t root) i = prepared caller t root from if_pos htight]
      apply ends_ensureBelow_changes hfaulty ⟨i, hroot, howned.isDir⟩ hnames
      rintro ⟨above, q, rest, hbelow, hprivate, hsuspect⟩
      have hhere : Private (prepared caller t root) caller.euid root :=
        ⟨i, hlocate, howned, htight⟩
      exact hopen ⟨root :: above, q, rest, congrArg _ hbelow,
        List.forall_mem_cons.mpr ⟨hhere, hprivate⟩, hsuspect⟩
    · apply (ends_ensureBelow_keeps _ _ names).mono
      · exact fun _ _ _ => trivial
      · exact fun _ t' hkeeps => not_grows_of_loose (DirTree.locate_lt hlocate) htight hkeeps
  · rintro _ _ ⟨-, hfault | hno⟩
    · exact absurd hfault hfaulty
    · exact absurd ⟨i, hlocate, howned⟩ hno

end Root

/-! ## The whole run -/

section Run

variable {caller : Caller} {refused : ℕ → Bool} {t : DirTree} {root dir : List Char}
  {names : List (List Char)} {Q : Unit → DirTree → Prop} {E : String → DirTree → Prop}

/-- Joining a name is one component more, however the path ends. -/
theorem rawPath_joinPath {base component : List Char} (hbase : base.head? = some '/')
    (h : IsName component) :
    rawPath (joinPath base component) = extended (rawPath base) component := by
  have hhead : component.head? ≠ some '/' :=
    fun hslash => h.slash_not_mem (List.mem_of_head? hslash)
  have hsplit : component.splitOn '/' = [component] := List.splitOn_eq_singleton h.slash_not_mem
  have hne : base ≠ [] := by
    rintro rfl
    cases hbase
  unfold joinPath rawPath extended
  rw [if_neg hhead]
  by_cases hend : base.getLast? = some '/'
  · rw [if_pos (.inr hend)]
    obtain ⟨rest, rfl⟩ := List.getLast?_eq_some_iff.mp hend
    have hrest : rest.splitOn '/' ≠ [] := List.splitOn_ne_nil '/' rest
    rw [List.append_assoc, List.singleton_append, splitOn_append, splitOn_append, hsplit,
      List.tail_append_of_ne_nil hrest, List.tail_append_of_ne_nil hrest]
    simp
  · have hno : ¬(base = [] ∨ base.getLast? = some '/') := by
      rintro (h | h)
      · exact hne h
      · exact hend h
    have hbase : base.splitOn '/' ≠ [] := List.splitOn_ne_nil '/' base
    rw [if_neg hno, splitOn_append, hsplit, List.tail_append_of_ne_nil hbase, if_neg]
    intro hlast
    apply hno
    apply getLast?_splitOn (c := '/')
    obtain ⟨part, parts, hparts⟩ := List.exists_cons_of_ne_nil hbase
    rw [hparts] at hlast ⊢
    rw [List.getLast?_cons, show parts.getLast? = some [] from hlast]
    rfl

/-- A path from the root stays one. -/
theorem head?_joinPath {base component : List Char} (hbase : base.head? = some '/')
    (h : IsName component) : (joinPath base component).head? = some '/' := by
  have hhead : component.head? ≠ some '/' :=
    fun hslash => h.slash_not_mem (List.mem_of_head? hslash)
  unfold joinPath
  rw [if_neg hhead]
  split_ifs
  · rw [List.head?_append, hbase]
    rfl
  · rw [List.head?_append, hbase]
    rfl

/-- One component more. -/
theorem components_extended {p : RawPath} {c : List Char} (h : IsName c) :
    components (extended p c) = components p ++ [c] := by
  unfold components extended
  split_ifs with hslash
  · obtain ⟨base, rfl⟩ := List.getLast?_eq_some_iff.mp hslash
    rw [List.dropLast_concat]
    simp [List.filter_append, idle, h.ne_nil, h.ne_dot]
  · simp [List.filter_append, idle_of_isName h]

/-- Below the root the components of a target are the names that were joined. -/
theorem components_foldl (hroot : root.head? = some '/') (hnames : ∀ c ∈ names, IsName c) :
    components (rawPath (names.foldl joinPath root)) = components (rawPath root) ++ names := by
  induction names generalizing root with
  | nil => exact (List.append_nil _).symm
  | cons c names ih =>
    have hc : IsName c := hnames c List.mem_cons_self
    rw [List.foldl_cons, ih (head?_joinPath hroot hc) fun d hd => hnames d (List.mem_cons_of_mem _ hd),
      rawPath_joinPath hroot hc, components_extended hc, List.append_assoc]
    rfl

/-- The components below the root are found again. -/
theorem stripPrefix_foldl (hroot : root.head? = some '/') (hnames : ∀ c ∈ names, IsName c) :
    stripPrefix (rawPath (names.foldl joinPath root)) (rawPath root) = some names := by
  unfold stripPrefix
  rw [components_foldl hroot hnames, if_pos, List.drop_left]
  rw [List.isPrefixOf_iff_prefix]
  exact List.prefix_append _ _

/-- What the run of `ensure_bridge_dir` ends with. -/
theorem Ends.run_cases (h : Ends caller refused Q E (ensureBridgeDir caller dir) t) :
    ((runEnsureBridgeDir caller refused t dir).1 = .ok () ∧
      Q () (runEnsureBridgeDir caller refused t dir).2) ∨
    (∃ e, (runEnsureBridgeDir caller refused t dir).1 = .error e ∧
      E e (runEnsureBridgeDir caller refused t dir).2) := by
  have hrun := (Program.follows_answering _ _ _ _).mp (h 0)
  unfold runEnsureBridgeDir
  cases hresult : ((ensureBridgeDir caller dir).run.eval (kernel caller refused) ⟨t, 0⟩).1 with
  | ok x =>
    rw [hresult] at hrun
    exact .inl ⟨rfl, hrun⟩
  | error e =>
    rw [hresult] at hrun
    exact .inr ⟨e, rfl, hrun⟩

/-- On a target below the root `ensure_bridge_dir` goes through the chain. -/
theorem ends_ensureBridgeDir (hroot : caller.bridgeRoot = .ok root)
    (habsolute : root.head? = some '/') (hnames : ∀ c ∈ names, IsName c)
    (h : Ends caller refused Q E (ensureChain (rawPath root) names) t) :
    Ends caller refused Q E (ensureBridgeDir caller (names.foldl joinPath root)) t := by
  unfold ensureBridgeDir
  rw [hroot]
  dsimp only
  rw [stripPrefix_foldl habsolute hnames]
  exact h

/-- A root that was set is accepted if it is absolute, and as it is. -/
theorem bridgeRoot_override {r : List Char} (hset : caller.overrideRoot = some root)
    (hroot : caller.bridgeRoot = .ok r) : r = root ∧ root.head? = some '/' := by
  unfold Caller.bridgeRoot bridgeRootFrom at hroot
  rw [hset] at hroot
  dsimp only at hroot
  split_ifs at hroot with habsolute
  cases hroot
  exact ⟨rfl, habsolute⟩

/-- A symlink at the root is suspect, wherever it leads. -/
theorem Planted.suspect {w : DirTree} {uid : ℕ} {p : RawPath} (h : Planted w uid p) :
    Suspect w uid p := by
  obtain ⟨e, i, he, hlink, -⟩ := h
  refine ⟨e, he, fun howned => ?_⟩
  rw [DirTree.isLink_of_isDir howned.isDir] at hlink
  cases hlink

/-- What is suspect in the tree that a run finds is so once the way to the root is made. -/
theorem Suspect.prepared {uid : ℕ} {p : RawPath} (h : Suspect t uid p) (r : RawPath) :
    Suspect (prepared caller t r) uid p := by
  obtain ⟨i, hi, hforeign⟩ := h
  have hgrows : t.Grows (fun _ => False) (Directories.prepared caller t r) := grows_makeAll _ t _
  have hlt : i < t.next := DirTree.locate_lt hi
  refine ⟨i, hgrows.locate_ok hi, fun howned => hforeign ⟨?_, ?_⟩⟩
  · rw [← hgrows.isDir_eq hlt]
    exact howned.isDir
  · rw [← hgrows.uid hlt]
    exact howned.uid_eq

/-- A guarded root protects its chain. -/
theorem protects_of_guarded (hroot : caller.bridgeRoot = .ok root)
    (habsolute : root.head? = some '/') (hnames : ∀ c ∈ names, IsName c)
    (h : Guarded caller t (rawPath root) names) (refused : ℕ → Bool) :
    Protects caller t (rawPath root) names
      (runEnsureBridgeDir caller refused t (names.foldl joinPath root)).1
      (runEnsureBridgeDir caller refused t (names.foldl joinPath root)).2 := by
  rcases or_assoc.mpr h with hplain | hblocked
  · constructor
    · intro hok
      rcases (ends_ensureBridgeDir hroot habsolute hnames
        (ends_ensureChain_safe hplain hnames)).run_cases with ⟨-, hsafe⟩ | ⟨e, herror, -⟩
      · exact hsafe
      · rw [herror] at hok
        cases hok
    · intro above p rest hchain hsuspect
      rcases (ends_ensureBridgeDir hroot habsolute hnames
        (ends_ensureChain_refused hplain hnames hchain hsuspect)).run_cases with
        ⟨-, hfalse⟩ | ⟨e, herror, hgrows⟩
      · exact hfalse.elim
      · exact ⟨by simp [herror], hgrows⟩
  · rcases (ends_ensureBridgeDir hroot habsolute hnames
      (ends_ensureChain_blocked hnames hblocked)).run_cases with
      ⟨-, hfalse⟩ | ⟨e, herror, hgrows⟩
    · exact hfalse.elim
    · constructor
      · intro hok
        rw [herror] at hok
        cases hok
      · intro above p rest _ _
        exact ⟨by simp [herror], hgrows.mono fun _ => False.elim⟩

/-- A run that is not refused any call shows whether a root is guarded. -/
theorem guarded_of_protects (hroot : caller.bridgeRoot = .ok root)
    (habsolute : root.head? = some '/') (hnames : ∀ c ∈ names, IsName c)
    (h : Protects caller t (rawPath root) names
      (runEnsureBridgeDir caller (fun _ => false) t (names.foldl joinPath root)).1
      (runEnsureBridgeDir caller (fun _ => false) t (names.foldl joinPath root)).2) :
    Guarded caller t (rawPath root) names := by
  by_contra hno
  unfold Guarded at hno
  rw [not_or, not_or, not_not] at hno
  obtain ⟨hne, hplanted, hopen⟩ := hno
  have hfaulty : ¬Faulty fun _ => false := by
    rintro ⟨n, hn⟩
    cases hn
  obtain ⟨hfails, hsame⟩ := h.refused [] _ _ rfl hplanted.suspect
  rcases (ends_ensureBridgeDir hroot habsolute hnames
    (ends_ensureChain_changes hfaulty hne hplanted hnames hopen)).run_cases with
    ⟨hok, -⟩ | ⟨e, -, hchanges⟩
  · exact hfails hok
  · apply hchanges
    apply hsame.mono
    rintro i ⟨q, hq, -⟩
    cases hq

/-- `ensure_bridge_dir` protects the chain from the root down to a target, whatever tree it
finds and whatever calls are refused, exactly when the root is guarded. -/
theorem ensureBridgeDir_protects_iff (hset : caller.overrideRoot = some root)
    (hroot : caller.bridgeRoot = .ok root) (hnames : ∀ c ∈ names, IsName c) (t : DirTree) :
    (∀ refused, Protects caller t (rawPath root) names
      (runEnsureBridgeDir caller refused t (names.foldl joinPath root)).1
      (runEnsureBridgeDir caller refused t (names.foldl joinPath root)).2) ↔
    Guarded caller t (rawPath root) names := by
  have habsolute := (bridgeRoot_override hset hroot).2
  constructor
  · exact fun h => guarded_of_protects hroot habsolute hnames (h fun _ => false)
  · exact protects_of_guarded hroot habsolute hnames

end Run

/-- A session's directory is such a target. -/
theorem sessionPath_eq_foldl (root name : String) :
    sessionPath root name = ["sessions".toList, name.toList].foldl joinPath root.toList := rfl

/-- The entries of a directory that holds a symlink and a directory next to it. -/
def linkEntries (c : List Char) : Option ℕ :=
  if c = "link".toList then some 1 else if c = "own".toList then some 2 else none

/-- The inodes of that tree. -/
def linkInode (i : ℕ) : Inode :=
  if i = 0 then ⟨.dir 0 linkEntries, 1000, 0o755⟩
  else if i = 1 then ⟨.link true ["own".toList], 1000, 0o777⟩
  else ⟨.dir 0 fun _ => none, 1000, 0o755⟩

def linkTree : DirTree where
  inode := linkInode
  next := 3
  root_lt := Nat.succ_pos 2
  closed := by
    intro i parent entries h
    unfold linkInode at h
    split_ifs at h with hroot hlink
    · cases h
      refine ⟨Nat.succ_pos 2, fun {c j} hj => ?_⟩
      unfold linkEntries at hj
      split_ifs at hj <;> cases hj <;> omega
    · cases h
      exact ⟨Nat.succ_pos 2, fun hj => by cases hj⟩

/-- A process with this root in its environment. -/
def callerWith (root : String) : Caller := ⟨none, some root.toList, 1000, 0o022⟩

/-- On the way to a session. -/
def demoNames : List (List Char) := ["sessions".toList, "demo".toList]

/-- Without a separator at its end the symlink is refused, and nothing is changed. -/
theorem link_refused :
    Protects (callerWith "/link") linkTree (rawPath "/link".toList) demoNames
      (runEnsureBridgeDir (callerWith "/link") (fun _ => false) linkTree
        (demoNames.foldl joinPath "/link".toList)).1
      (runEnsureBridgeDir (callerWith "/link") (fun _ => false) linkTree
        (demoNames.foldl joinPath "/link".toList)).2 :=
  (ensureBridgeDir_protects_iff rfl rfl (by decide) linkTree).mpr (.inl (by decide)) _

/-- With one it is used as the root. -/
theorem link_with_separator_accepted :
    (callerWith "/link/").bridgeRoot = .ok "/link/".toList ∧
    (runEnsureBridgeDir (callerWith "/link/") (fun _ => false) linkTree
      (demoNames.foldl joinPath "/link/".toList)).1 = .ok () ∧
    ¬Protects (callerWith "/link/") linkTree (rawPath "/link/".toList) demoNames
      (runEnsureBridgeDir (callerWith "/link/") (fun _ => false) linkTree
        (demoNames.foldl joinPath "/link/".toList)).1
      (runEnsureBridgeDir (callerWith "/link/") (fun _ => false) linkTree
        (demoNames.foldl joinPath "/link/".toList)).2 := by
  have hok : (runEnsureBridgeDir (callerWith "/link/") (fun _ => false) linkTree
      (demoNames.foldl joinPath "/link/".toList)).1 = .ok () := by decide +kernel
  refine ⟨rfl, hok, fun h => ?_⟩
  obtain ⟨i, hi, howned, -⟩ := h.safe hok _ List.mem_cons_self
  have hlocate : (runEnsureBridgeDir (callerWith "/link/") (fun _ => false) linkTree
      (demoNames.foldl joinPath "/link/".toList)).2.locate
        (trimmed (rawPath "/link/".toList)) = .ok 1 := by decide +kernel
  have hlink : (runEnsureBridgeDir (callerWith "/link/") (fun _ => false) linkTree
      (demoNames.foldl joinPath "/link/".toList)).2.isDir 1 = false := by decide +kernel
  rw [hlocate] at hi
  cases hi
  rw [howned.isDir] at hlink
  cases hlink

end IgnibyteBridge.Directories
