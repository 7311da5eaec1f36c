import Interim.Minilisp
import Interim.Alloc.Heap
import Interim.Library.Reach
import Interim.Alloc.Mark
import Interim.Alloc.Collect
import Interim.Alloc.Runs
import Interim.Reader.Model
import Interim.Reader.Abstract
import Interim.Reader.Represent
import Interim.Reader.Simulation
import Interim.Reader.Step
import Interim.Reader.Layout
import Interim.Writer.Model
import Interim.Writer.Roundtrip
import Interim.Writer.Tree
import Interim.Writer.Bounds
import Interim.Alloc.Construct
import Interim.Alloc.View
import Interim.Alloc.Instances
import Interim.Alloc.Termination
import Interim.Compiler.Frame
import Interim.Compiler.Builtin
import Interim.Compiler.Model
import Interim.Compiler.Segment
import Interim.Compiler.Forms
import Interim.Compiler.Init
import Interim.Compiler.Straight
import Interim.Compiler.Arguments
import Interim.Compiler.Locals
import Interim.Compiler.Emission
import Interim.Library.OnesComplement
import Interim.Net.MiniIp
import Interim.Net.Checksum
import Interim.Net.Bounds
import Interim.Net.Stream
import Interim.Backend.Machines
import Interim.Backend.Integer
import Interim.Backend.Agreement
import Interim.Backend.X86
import Interim.Backend.Compare
import Interim.Sledge.MainLoop
import Interim.Sledge.Accumulator
import Interim.Hosted.Model
import Interim.Hosted.Allocation
import Interim.Hosted.Mount
import Interim.Hosted.Isolation
import Interim.Machine.Model
import Interim.Machine.Operands
import Interim.Machine.Fields
import Interim.Machine.Buffers
import Interim.Machine.Operation
import Interim.Machine.Expressions
import Interim.Machine.Source
import Interim.Machine.Division
import Interim.Machine.Boxing
import Interim.Alloc.Strings
import Interim.Library.While
import Interim.Alloc.Sizes
import Interim.Lisp.Lib
import Interim.Lisp.Copy
import Interim.Lisp.Split
import Interim.Reader.Stack
import Interim.Reader.Outcome
import Interim.Reader.Reading
import Interim.Reader.Same
import Interim.Reader.Numbers
import Interim.Reader.First
import Interim.Reader.Junk
import Interim.Writer.Dotted
import Interim.Writer.Apart
import Interim.Devices.Keyboard
import Interim.Sledge.Recovery
import Interim.Sledge.Evaluators
import Interim.Net.Send
import Interim.Net.Path
import Interim.Gfx.Surface
import Interim.Library.Bresenham
import Interim.Gfx.Line
import Interim.Gfx.Boxfill
import Interim.Gfx.Blit
import Interim.Lisp.Lists
import Interim.Lisp.Editor
import Interim.Sledge.Utf8
import Interim.Library.Backpatch
import Interim.Backend.Labels
import Interim.Backend.ArmCode
import Interim.Backend.X86Code
import Interim.Backend.Branches
import Interim.Backend.Pool
import Interim.Compiler.Session
import Interim.Compiler.Bodies
import Interim.Compiler.Labels
import Interim.Compiler.Unwritten
import Interim.Compiler.Independence
import Interim.Compiler.Accesses
import Interim.Backend.StackSlots
import Interim.Backend.Emitters
import Interim.Backend.Tables
import Interim.Backend.Linking
import Interim.Library.Chains
import Interim.Sledge.StrMap
import Interim.Compiler.Environment
import Interim.Compiler.Heights
import Interim.Compiler.Activations
