import IgnibyteBridge.Concurrency.System
import IgnibyteBridge.Concurrency.Trace
import IgnibyteBridge.Concurrency.Calls
import IgnibyteBridge.Concurrency.History
import IgnibyteBridge.Concurrency.Keeping
import IgnibyteBridge.Concurrency.Descent
import IgnibyteBridge.Clean.Segments
import IgnibyteBridge.Clean.Aborted
import IgnibyteBridge.Clean.LineBreaks
import IgnibyteBridge.Clean.Conservation
import IgnibyteBridge.Clean.MultiByte
import IgnibyteBridge.Storage.WriteAtomic
import IgnibyteBridge.Storage.Replacement
import IgnibyteBridge.Storage.Versions
import IgnibyteBridge.Logs.Tail
import IgnibyteBridge.Paths
import IgnibyteBridge.SearchPath
import IgnibyteBridge.Search.FirstMatch
import IgnibyteBridge.ProgramLookup
import IgnibyteBridge.Text.Fields
import IgnibyteBridge.Procinfo
import IgnibyteBridge.Session.World
import IgnibyteBridge.Keys
import IgnibyteBridge.Session.Programs
import IgnibyteBridge.Session.Knowledge
import IgnibyteBridge.Session.Rules
import IgnibyteBridge.Session.Protocol
import IgnibyteBridge.Session.Repertoire
import IgnibyteBridge.Session.Upkeep
import IgnibyteBridge.Session.Steps
import IgnibyteBridge.Session.Sections
import IgnibyteBridge.Session.Terminal
import IgnibyteBridge.Session.Starts
import IgnibyteBridge.Session.Cleanup
import IgnibyteBridge.Session.Generations
import IgnibyteBridge.Session.Handles
import IgnibyteBridge.Session.Identity
import IgnibyteBridge.Session.Adoption
import IgnibyteBridge.Session.Lifecycle
import IgnibyteBridge.Session.Serving
import IgnibyteBridge.Session.Orphans
import IgnibyteBridge.Session.Ownership
import IgnibyteBridge.Session.Closing
import IgnibyteBridge.Session.Attendance
import IgnibyteBridge.Session.Shutdown
import IgnibyteBridge.Session.Capturing
import IgnibyteBridge.Session.Isolation
import IgnibyteBridge.Session.Messages
import IgnibyteBridge.Session.Plumbing
import IgnibyteBridge.Session.Piping
import IgnibyteBridge.Session.Readers
import IgnibyteBridge.Session.Listening
import IgnibyteBridge.Storage.Linearization
import IgnibyteBridge.Storage.Leftovers
import IgnibyteBridge.Session.Record
import IgnibyteBridge.Session.Delivery
import IgnibyteBridge.Session.Answers
import IgnibyteBridge.Session.WellFormed
import IgnibyteBridge.Session.Locking
import IgnibyteBridge.Session.Endings
import IgnibyteBridge.Session.Taping
import IgnibyteBridge.Session.Transcript
import IgnibyteBridge.Session.Evidence
import IgnibyteBridge.Session.Termination
import IgnibyteBridge.Session.GroupStop
import IgnibyteBridge.Session.PidReuse
import IgnibyteBridge.Session.Initialize
import IgnibyteBridge.Session.Rotation
import IgnibyteBridge.Text.Records
import IgnibyteBridge.Text.LexicalPath
import IgnibyteBridge.Session.Reports
import IgnibyteBridge.Session.Operations
import IgnibyteBridge.Session.Paths
import IgnibyteBridge.Session.Confinement
import IgnibyteBridge.Text.Trimmed
import IgnibyteBridge.Session.Screen
import IgnibyteBridge.Json.Grammar
import IgnibyteBridge.Json.Reader
import IgnibyteBridge.Json.Printer
import IgnibyteBridge.Json.Pretty
import IgnibyteBridge.Daemon.Requests
import IgnibyteBridge.Daemon.Framing
import IgnibyteBridge.Daemon.Responses
import IgnibyteBridge.Daemon.Client
import IgnibyteBridge.Daemon.Startup
import IgnibyteBridge.Daemon.Singleton
import IgnibyteBridge.Text.RawPath
import IgnibyteBridge.Storage.DirTree
import IgnibyteBridge.Directories.Ensure
import IgnibyteBridge.Directories.Specs
import IgnibyteBridge.Directories.Chain
