import Btor2Mlir.IR
import Btor2Mlir.Dataflow
import Btor2Mlir.Ebpf.Instruction
import Btor2Mlir.Ebpf.Lifter
import Btor2Mlir.Ebpf.Scope
import Btor2Mlir.Ebpf.Semantics
import Btor2Mlir.Ebpf.ResolveMemory
import Btor2Mlir.Ebpf.Classify
import Btor2Mlir.Ebpf.Boundaries
import Btor2Mlir.Ebpf.Simulation
import Btor2Mlir.Ebpf.Jumps
import Btor2Mlir.Ebpf.Accept
import Btor2Mlir.Ebpf.Dataflow
import Btor2Mlir.Ebpf.Output
import Btor2Mlir.Btor.Liveness
import Btor2Mlir.Btor.InPlace
import Btor2Mlir.Btor.Outcome
import Btor2Mlir.Btor.Reorder
import Btor2Mlir.Btor.Order
import Btor2Mlir.Btor.Dataflow
import Btor2Mlir.Btor.Refine
import Btor2Mlir.Btor.Safe
