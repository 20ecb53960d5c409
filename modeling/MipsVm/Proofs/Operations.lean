import MipsVm.Proofs.SpaceService

/-! Operations of the kernel with any arguments, in any order. Nobody keeps track here of what was handed
out: the addresses and the address spaces may be any at all. -/
namespace MipsVm

inductive Operation where
  | bootstrap
  | isReady
  | frameStats
  | auditFrames
  | allocFrames (n : Nat)
  | allocKernelPages (n : Nat)
  | freeFrames (pa : PAddr)
  | freeKernelPages (va : VAddr)
  | markThreadStack (pa : PAddr)
  | writeBytes (pa : PAddr) (bytes : Array UInt8)
  | zeroFrames (pa : PAddr) (n : Nat)
  | copyFrames (dst src : PAddr) (n : Nat)
  | defineRegion (a : AddressSpace) (va : VAddr) (size : Nat) (perms : Permissions)
  | prepareLoad (a : AddressSpace)
  | completeLoad (a : AddressSpace)
  | copySpace (a : AddressSpace)
  | destroySpace (a : AddressSpace)
  | activateSpace (a : Option AddressSpace)
  | fault (a : Option AddressSpace) (code : Nat) (addr : VAddr)
  | copyOut (a : AddressSpace) (dst : VAddr) (bytes : Array UInt8)
  | copyIn (a : AddressSpace) (src : VAddr) (len : Nat)
  | shootdown (page : Option VAddr)

namespace Operation

/-- Whether the operation changes slots of the translation buffer. -/
def LoadsTlb : Operation → Prop
  | completeLoad _ | activateSpace _ | fault .. => True
  | _ => False

end Operation

namespace Machine

/-- The machine that the operation leaves, whether it answers or halts. -/
def next (m : Machine) : Operation → Machine
  | .bootstrap => (Kernel.bootstrap.outcome m).2
  | .isReady => (Kernel.isReady.outcome m).2
  | .frameStats => (Kernel.frameStats.outcome m).2
  | .auditFrames => (Kernel.auditFrames.outcome m).2
  | .allocFrames n => ((Kernel.allocFrames n).outcome m).2
  | .allocKernelPages n => ((Kernel.allocKernelPages n).outcome m).2
  | .freeFrames pa => ((Kernel.freeFrames pa).outcome m).2
  | .freeKernelPages va => ((Kernel.freeKernelPages va).outcome m).2
  | .markThreadStack pa => ((Kernel.markThreadStack pa).outcome m).2
  | .writeBytes pa bytes => ((Kernel.writeBytes pa bytes).outcome m).2
  | .zeroFrames pa n => ((Kernel.zeroFrames pa n).outcome m).2
  | .copyFrames dst src n => ((Kernel.copyFrames dst src n).outcome m).2
  | .defineRegion a va size perms => ((Kernel.defineRegion a va size perms).outcome m).2
  | .prepareLoad a => (Loader.prepareLoad.outcome ⟨m, a⟩).2.machine
  | .completeLoad a => ((Kernel.completeLoad a).outcome m).2
  | .copySpace a => ((Kernel.copySpace a).outcome m).2
  | .destroySpace a => ((Kernel.destroySpace a).outcome m).2
  | .activateSpace a => ((Kernel.activateSpace a).outcome m).2
  | .fault a code addr => ((Kernel.fault a code addr).outcome m).2
  | .copyOut a dst bytes => ((Kernel.copyOut a dst bytes).outcome m).2
  | .copyIn a src len => ((Kernel.copyIn a src len).outcome m).2
  | .shootdown page => ((Kernel.shootdown page).outcome m).2

def run (m : Machine) (ops : List Operation) : Machine := ops.foldl next m

/-- No operation goes beyond a relation that the operations on physical memory keep to, and those on the
buffer as far as it has a part in them. -/
theorem next_bound {R : Machine → Machine → Prop} (hR : MemoryBound R) {op : Operation}
    (hflush : op.LoadsTlb → Kernel.flushTlb.Obeys R)
    (hinstall : op.LoadsTlb → ∀ va pa dirty, (Kernel.installMapping va pa dirty).Obeys R)
    (m : Machine) : R m (m.next op) := by
  have hcomposes := hR.toComposes
  cases op with
  | bootstrap => exact hR.bootstrap m
  | isReady => exact hR.isReady m
  | frameStats => exact hR.frameStats m
  | auditFrames => exact hR.auditFrames m
  | allocFrames n => exact hR.allocFrames n m
  | allocKernelPages n => exact Kernel.obeys_allocKernelPages hcomposes hR.allocFrames n m
  | freeFrames pa => exact hR.freeFrames pa m
  | freeKernelPages va => exact Kernel.obeys_freeKernelPages hcomposes hR.freeFrames va m
  | markThreadStack pa => exact hR.markThreadStack pa m
  | writeBytes pa bytes => exact hR.writeBytes pa bytes m
  | zeroFrames pa n => exact hR.zeroFrames pa n m
  | copyFrames dst src n => exact hR.copyFrames dst src n m
  | defineRegion a va size perms => exact Kernel.obeys_defineRegion hcomposes a va size perms m
  | prepareLoad a => exact Loader.prepareLoad_bound hR ⟨m, a⟩
  | completeLoad a => exact Kernel.obeys_completeLoad hcomposes (hflush trivial) a m
  | copySpace a => exact Kernel.obeys_copySpace hR a m
  | destroySpace a => exact Kernel.obeys_destroySpace hcomposes hR.freeFrames a m
  | activateSpace a => exact Kernel.obeys_activateSpace hcomposes (hflush trivial) a m
  | fault a code addr => exact Kernel.obeys_fault hcomposes (hinstall trivial) a code addr m
  | copyOut a dst bytes => exact Kernel.obeys_copyOut hcomposes hR.writeBytes a dst bytes m
  | copyIn a src len => exact Kernel.obeys_copyIn hcomposes a src len m
  | shootdown page => exact Kernel.obeys_shootdown hcomposes page m

theorem run_bound {R : Machine → Machine → Prop} (hR : MemoryBound R)
    (hflush : Kernel.flushTlb.Obeys R)
    (hinstall : ∀ va pa dirty, (Kernel.installMapping va pa dirty).Obeys R) (m : Machine)
    (ops : List Operation) : R m (m.run ops) := by
  induction ops generalizing m with
  | nil => exact hR.refl m
  | cons op rest ih =>
    have hnext : R m (m.next op) := next_bound hR (fun _ => hflush) (fun _ => hinstall) m
    exact hR.trans hnext (ih (m.next op))

end Machine
end MipsVm
