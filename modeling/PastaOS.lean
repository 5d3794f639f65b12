import PastaOS.Lib.Ring
import PastaOS.Lib.Run
import PastaOS.Lib.StackMachine
import PastaOS.Types
import PastaOS.Ctype
import PastaOS.Lib.Cursor
import PastaOS.Lib.Lexicographic
import PastaOS.Lib.Occurrence
import PastaOS.Lib.Separators
import PastaOS.Strings.Defs
import PastaOS.Strings.Compare
import PastaOS.Strings.Order
import PastaOS.Strings.Search
import PastaOS.Strings.Separate
import PastaOS.ListHead
import PastaOS.Lib.Rings
import PastaOS.Lists.Defs
import PastaOS.Lists.Rules
import PastaOS.Lists.Runs
import PastaOS.Lists.Iterate
import PastaOS.Sched.Defs
import PastaOS.Sched.RoundRobin
import PastaOS.Sched.Invariant
import PastaOS.Sched.Correct
import PastaOS.Sched.Switch
import PastaOS.Sched.Context
import PastaOS.Lib.Loop
import PastaOS.Console.Defs
import PastaOS.Console.Tape
import PastaOS.Printf.Defs
import PastaOS.Printf.Text
import PastaOS.Lib.Scanner
import PastaOS.Printf.Format
import PastaOS.Printf.Simulation
import PastaOS.Printf.Arguments
import PastaOS.Printf.Paper
import PastaOS.Printf.Buffer
import PastaOS.Printf.Number
import PastaOS.Printf.Digits
import PastaOS.Scanf.RoundTrip
import PastaOS.Scanf.Alternate
import PastaOS.Scanf.Format
import PastaOS.Scanf.Text
import PastaOS.Scanf.Compose
import PastaOS.Scanf.ScanBack
import PastaOS.Scanf.Record
import PastaOS.Lib.Positional
import PastaOS.Scanf.Numeral
import PastaOS.Printf.Literal
import PastaOS.Scanf.Width
import PastaOS.Printf.Malformed
import PastaOS.Printf.Written
import PastaOS.Printf.Field
import PastaOS.Printf.Overflow
import PastaOS.Printf.Iso
import PastaOS.Scanf.Pointers
import PastaOS.Console.Printk
import PastaOS.Console.Lines
import PastaOS.Console.Messages
import PastaOS.Interrupt.Masked
import PastaOS.Interrupt.Mirror
import PastaOS.Interrupt.Dispatch
import PastaOS.Interrupt.Spurious
import PastaOS.Interrupt.InService
import PastaOS.Interrupt.Refuse
import PastaOS.Interrupt.Reopen
import PastaOS.Interrupt.Gates
import PastaOS.Lib.Processor
import PastaOS.Interrupt.Entry
import PastaOS.Sched.Interrupted
import PastaOS.Panic
import PastaOS.Main.Defs
import PastaOS.Main.Order
import PastaOS.Main.Greetings
