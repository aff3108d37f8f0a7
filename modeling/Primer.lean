import Primer.Grammar.Cursor
import Primer.Grammar.Recognizer
import Primer.Lang.Interpreter
import Primer.Lang.Machine
import Primer.Lang.Programs
import Primer.Main
import Primer.Memory.InPlace
import Primer.Memory.Slab
import Primer.Proofs.Grammar.Recognition
import Primer.Proofs.Grammar.Resumption
import Primer.Proofs.Lang.Adequacy
import Primer.Proofs.Lang.Counting
import Primer.Proofs.Lang.Dependence
import Primer.Proofs.Lang.Exactness
import Primer.Proofs.Lang.Factorial
import Primer.Proofs.Lang.History
import Primer.Proofs.Lang.Limits
import Primer.Proofs.Lang.Recording
import Primer.Proofs.Lang.Rendering
import Primer.Proofs.Lang.Running
import Primer.Proofs.Lang.RunningTime
import Primer.Proofs.Lang.Symbols
import Primer.Proofs.Log.Greedy
import Primer.Proofs.Memory.Accounting
import Primer.Proofs.Memory.ByteStore
import Primer.Proofs.Memory.Calls
import Primer.Proofs.Memory.Integers
import Primer.Proofs.Memory.Names
import Primer.Proofs.Memory.Refusals
import Primer.Proofs.Memory.Release
import Primer.Proofs.Memory.SlotOrder
import Primer.Proofs.Memory.WrittenBytes
import Primer.Proofs.Output.Console
import Primer.Proofs.Speech.Recital
import Primer.Proofs.Storage.Outcome
import Primer.Storage.Cells
import Primer.Storage.Replay
