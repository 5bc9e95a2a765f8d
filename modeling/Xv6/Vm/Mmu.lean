import Xv6.Base.Bytes

/-!
# Addresses and page-table entries

The constants of `memlayout.h` and `mmu.h`, and 32-bit page-table entries as numbers. Physical
addresses of pages appear as frame numbers: frame `f` is the page at physical address `f * PGSIZE`,
and `P2V(f * PGSIZE)` is its kernel address.
-/

namespace Vm

/-! ## `memlayout.h` -/

def EXTMEM : Nat := 0x100000
def PHYSTOP : Nat := 0x20000000
def DEVSPACE : Nat := 0xFE000000
def KERNBASE : Nat := 0x80000000
def KERNLINK : Nat := KERNBASE + EXTMEM
def PCI_BAR_BASE : Nat := 0x80000000
def PCI_VP_OFFSET : Nat := 0x40000000

/-! ## `mmu.h` -/

def PGSIZE : Nat := 4096
/-- Entries of a page directory, and of a page table. -/
def NPDENTRIES : Nat := 1024
def PTE_P : Nat := 1
def PTE_W : Nat := 2
def PTE_U : Nat := 4

/-- `uint` arithmetic wraps around here. -/
def UINT : Nat := 2 ^ 32

def pdx (va : Nat) : Nat := va / 2 ^ 22 % 1024

def ptx (va : Nat) : Nat := va / 2 ^ 12 % 1024

/-- The virtual address with directory index `d` and table index `t`. -/
def pgaddr (d t : Nat) : Nat := (d * 2 ^ 22 + t * 2 ^ 12) % UINT

def pgroundup (a : Nat) : Nat := (a + PGSIZE - 1) % UINT / PGSIZE * PGSIZE

def pgrounddown (a : Nat) : Nat := a / PGSIZE * PGSIZE

/-- `PTE_ADDR`, as a frame number. -/
def pteAddr (w : Nat) : Nat := w / PGSIZE

def pteFlags (w : Nat) : Nat := w % PGSIZE

def present (w : Nat) : Bool := w.testBit 0

def writable (w : Nat) : Bool := w.testBit 1

def user (w : Nat) : Bool := w.testBit 2

/-- `pa | perm | PTE_P`. -/
def mkPte (pa perm : Nat) : Nat := pa ||| perm ||| PTE_P

/-- The entry of a user page, or of a page table. -/
abbrev userPte (f : Nat) : Nat := mkPte (f * PGSIZE) (PTE_W ||| PTE_U)

/-- `w & ~PTE_U`. -/
def clearU (w : Nat) : Nat := w &&& (UINT - 1 - PTE_U)

/-! ## Entries -/

@[simp] theorem present_zero : present 0 = false := rfl

@[simp] theorem present_mkPte {pa perm : Nat} : present (mkPte pa perm) = true := by
  simp [present, mkPte, PTE_P]

theorem mkPte_eq {f perm : Nat} (h : perm < PGSIZE) :
    mkPte (f * PGSIZE) perm = f * PGSIZE + (perm ||| PTE_P) := by
  have hlt : perm ||| PTE_P < 2 ^ 12 := Nat.or_lt_two_pow h (by decide)
  rw [mkPte, Nat.or_assoc, PGSIZE, show (4096 : Nat) = 2 ^ 12 from rfl, Nat.mul_comm]
  exact (Nat.two_pow_add_eq_or_of_lt hlt f).symm

theorem or_lt_pgsize {perm : Nat} (h : perm < PGSIZE) : perm ||| PTE_P < PGSIZE :=
  Nat.or_lt_two_pow (n := 12) h (by decide)

@[simp] theorem pteAddr_mkPte {f perm : Nat} (h : perm < PGSIZE) :
    pteAddr (mkPte (f * PGSIZE) perm) = f := by
  have hlt := or_lt_pgsize h
  rw [mkPte_eq h, pteAddr]
  unfold PGSIZE at *
  omega

theorem pteAddr_userPte {f : Nat} : pteAddr (userPte f) = f := pteAddr_mkPte (by decide)

theorem mkPte_lt {f perm : Nat} (hf : f < 2 ^ 20) (h : perm < PGSIZE) :
    mkPte (f * PGSIZE) perm < UINT := by
  have hlt := or_lt_pgsize h
  rw [mkPte_eq h]
  unfold PGSIZE UINT at *
  omega

theorem user_mkPte {f perm : Nat} (h : perm = 0 ∨ perm = PTE_W) :
    user (mkPte (f * PGSIZE) perm) = false := by
  have hb : (f * PGSIZE).testBit 2 = false := by
    rw [PGSIZE, show (4096 : Nat) = 2 ^ 12 from rfl, Nat.testBit_mul_two_pow]
    simp
  rw [user, mkPte, Nat.testBit_or, Nat.testBit_or, hb]
  rcases h with rfl | rfl <;> rfl

theorem clearU_le (w : Nat) : clearU w ≤ w := Nat.and_le_left

@[simp] theorem present_clearU {w : Nat} : present (clearU w) = present w := by
  rw [present, clearU, Nat.testBit_and, show (UINT - 1 - PTE_U).testBit 0 = true from rfl,
    Bool.and_true, present]

@[simp] theorem user_clearU {w : Nat} : user (clearU w) = false := by
  rw [user, clearU, Nat.testBit_and, show (UINT - 1 - PTE_U).testBit 2 = false from rfl,
    Bool.and_false]

@[simp] theorem pteAddr_clearU {w : Nat} (h : w < UINT) : pteAddr (clearU w) = pteAddr w := by
  have hd : (w &&& (UINT - 1 - PTE_U)) / 2 ^ 12 = w / 2 ^ 12 &&& (UINT - 1 - PTE_U) / 2 ^ 12 :=
    Nat.and_div_two_pow
  have hm : (UINT - 1 - PTE_U) / 2 ^ 12 = 2 ^ 20 - 1 := rfl
  rw [pteAddr, pteAddr, clearU, PGSIZE, show (4096 : Nat) = 2 ^ 12 from rfl, hd, hm,
    Nat.and_two_pow_sub_one_eq_mod]
  unfold UINT at h
  omega

/-! ## Addresses -/

theorem pdx_lt (va : Nat) : pdx va < 1024 := Nat.mod_lt _ (by decide)

theorem ptx_lt (va : Nat) : ptx va < 1024 := Nat.mod_lt _ (by decide)

theorem pdx_user {va : Nat} (h : va < KERNBASE) : pdx va < 512 := by
  unfold pdx KERNBASE at *
  omega

theorem pdx_kernel {va : Nat} (h : KERNBASE ≤ va) (h' : va < UINT) : 512 ≤ pdx va := by
  unfold pdx KERNBASE UINT at *
  omega

theorem pgroundup_of_le {a : Nat} (h : a ≤ KERNBASE) :
    pgroundup a = (a + PGSIZE - 1) / PGSIZE * PGSIZE := by
  unfold pgroundup
  rw [Nat.mod_eq_of_lt]
  unfold KERNBASE PGSIZE UINT at *
  omega

theorem pgroundup_bounds {a : Nat} (h : a ≤ KERNBASE) :
    a ≤ pgroundup a ∧ pgroundup a < a + PGSIZE ∧ pgroundup a ≤ KERNBASE ∧
      pgroundup a % PGSIZE = 0 := by
  rw [pgroundup_of_le h]
  unfold KERNBASE PGSIZE at *
  omega

end Vm
