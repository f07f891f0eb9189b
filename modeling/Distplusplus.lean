import Distplusplus.Client.Answer
import Distplusplus.Client.Console
import Distplusplus.Client.Fallback
import Distplusplus.Client.Func
import Distplusplus.Client.Main
import Distplusplus.Client.Parser
import Distplusplus.Client.Proofs.Classify
import Distplusplus.Client.Proofs.Course
import Distplusplus.Client.Proofs.Decision
import Distplusplus.Client.Proofs.Ending
import Distplusplus.Client.Proofs.Granting
import Distplusplus.Client.Proofs.History
import Distplusplus.Client.Proofs.Inlining
import Distplusplus.Client.Proofs.Masquerade
import Distplusplus.Client.Proofs.Naming
import Distplusplus.Client.Proofs.Origin
import Distplusplus.Client.Proofs.Probing
import Distplusplus.Client.Proofs.Race
import Distplusplus.Client.Proofs.Reads
import Distplusplus.Client.Proofs.Registry
import Distplusplus.Client.Proofs.Request
import Distplusplus.Client.Proofs.Rounds
import Distplusplus.Client.Proofs.Spelling
import Distplusplus.Client.Proofs.Supported
import Distplusplus.Client.Proofs.Survivable
import Distplusplus.Client.Proofs.Termination
import Distplusplus.Client.Proofs.Tokens
import Distplusplus.Client.Proofs.Transparent
import Distplusplus.Client.Proofs.Unread
import Distplusplus.Client.Proofs.Visible
import Distplusplus.Client.QueryDB
import Distplusplus.Client.Reading
import Distplusplus.Client.Send
import Distplusplus.Client.Stdin
import Distplusplus.Client.Units
import Distplusplus.Cluster.Candidates
import Distplusplus.Cluster.EndToEnd
import Distplusplus.Cluster.Network
import Distplusplus.Cluster.Ownership
import Distplusplus.Cluster.Whole
import Distplusplus.Common.Compression
import Distplusplus.Common.Constants
import Distplusplus.Common.Protocol
import Distplusplus.Common.Tempfile
import Distplusplus.Lib.Acts
import Distplusplus.Lib.Bag
import Distplusplus.Lib.Ledger
import Distplusplus.Lib.Machine
import Distplusplus.Lib.Numeral
import Distplusplus.Lib.Path
import Distplusplus.Lib.Reader
import Distplusplus.Lib.Store
import Distplusplus.Lib.Text
import Distplusplus.Lib.Trace
import Distplusplus.Lib.Units
import Distplusplus.Proofs.Agreement
import Distplusplus.Proofs.Console
import Distplusplus.Proofs.Fidelity
import Distplusplus.Proofs.Language
import Distplusplus.Proofs.Output
import Distplusplus.Server.Config
import Distplusplus.Server.Distribute
import Distplusplus.Server.Machine
import Distplusplus.Server.Parser
import Distplusplus.Server.Proofs.Accounting
import Distplusplus.Server.Proofs.Booking
import Distplusplus.Server.Proofs.Calls
import Distplusplus.Server.Proofs.Cleanup
import Distplusplus.Server.Proofs.Effects
import Distplusplus.Server.Proofs.Foretold
import Distplusplus.Server.Proofs.Gate
import Distplusplus.Server.Proofs.Grammar
import Distplusplus.Server.Proofs.Inside
import Distplusplus.Server.Proofs.Lifetime
import Distplusplus.Server.Proofs.Override
import Distplusplus.Server.Proofs.Progress
import Distplusplus.Server.Proofs.Redirect
import Distplusplus.Server.Proofs.Rejection
import Distplusplus.Server.Proofs.Slots
import Distplusplus.Server.Proofs.Survival
import Distplusplus.Server.Proofs.Tickets
import Distplusplus.Server.Query
