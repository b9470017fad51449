import NativeBridge.Call.Boundary
import NativeBridge.Call.Dynamic
import NativeBridge.Memory.Heap
import NativeBridge.Session.Exit
import NativeBridge.Value.Exact
import NativeBridge.Main
import NativeBridge.Proofs.Wire.Format
import NativeBridge.Proofs.Wire.Levels
import NativeBridge.Proofs.Type.Nodes
import NativeBridge.Proofs.Type.Reading
import NativeBridge.Proofs.Type.Layout
import NativeBridge.Proofs.Type.Levels
import NativeBridge.Proofs.Name.Reversal
import NativeBridge.Proofs.Symbol.Reading
import NativeBridge.Proofs.Symbol.Representable
import NativeBridge.Proofs.Symbol.RoundTrip
import NativeBridge.Proofs.Mangling.Past
import NativeBridge.Proofs.Mangling.Grammar
import NativeBridge.Proofs.Mangling.Parsing
import NativeBridge.Proofs.Mangling.Tidy
import NativeBridge.Proofs.Mangling.RoundTrip
import NativeBridge.Proofs.Mangling.Derivation
import NativeBridge.Proofs.Mangling.Unambiguous
import NativeBridge.Proofs.Memory.Address
import NativeBridge.Proofs.Memory.Stack
import NativeBridge.Proofs.Memory.Ledger
import NativeBridge.Proofs.Call.Buffer
import NativeBridge.Proofs.Call.Entries
import NativeBridge.Proofs.Call.Reading
import NativeBridge.Proofs.Call.Nest
import NativeBridge.Proofs.Symbol.Ids
import NativeBridge.Proofs.Symbol.Delimited
import NativeBridge.Proofs.Call.Confined
import NativeBridge.Proofs.Call.Upcall
import NativeBridge.Proofs.Mangling.Key
import NativeBridge.Proofs.Call.Interleaved
import NativeBridge.Proofs.Mangling.Resolver
import NativeBridge.Proofs.Symbol.Linking
import NativeBridge.Proofs.Call.Guards
import NativeBridge.Proofs.Exit.Account
import NativeBridge.Proofs.Session.Effects
import NativeBridge.Proofs.Session.Draining
import NativeBridge.Proofs.Session.Hooks
import NativeBridge.Proofs.Session.Registry
import NativeBridge.Proofs.Call.Orderly
import NativeBridge.Proofs.Memory.Reallocation
import NativeBridge.Proofs.Call.Offering
import NativeBridge.Proofs.Call.Invocation
import NativeBridge.Proofs.Call.Signature
import NativeBridge.Proofs.Value.Literals
import NativeBridge.Proofs.Symbol.Order
import NativeBridge.Proofs.Value.Floating
import NativeBridge.Proofs.CommandLine.Marshalling
import NativeBridge.Proofs.Config.StackSize
import NativeBridge.Proofs.Memory.Slices
import NativeBridge.Proofs.Mangling.Boundaries
import NativeBridge.Proofs.Symbol.Census
