import Xv6.Boot.Madt

/-!
# The loader

`RelocateELF` (`relocate.c`) places the kernel's segments, and `UefiMain` (`loader.c`) fills the page of
boot parameters that `graphic_init` and `mpinit_uefi` of the kernel read. Physical memory is one store.
The buffer with the ELF image and the firmware's tables are stores of their own. `AllocatePages` is a
parameter, asked for an address and a number of pages; `CopyMem` and `SetMem` are `copy`.
-/

namespace Boot

open Bytes

/-! ## `RelocateELF` -/

/-- `Elf32_Phdr`, the fields that are read. -/
structure Phdr where
  p_type : Nat
  p_offset : Nat
  p_paddr : Nat
  p_filesz : Nat
  p_memsz : Nat
  p_align : Nat
deriving DecidableEq

def PT_LOAD : Nat := 1

def phdrAt (file : Store) (o : Nat) : Phdr where
  p_type := get32 file o
  p_offset := get32 file (o + 4)
  p_paddr := get32 file (o + 12)
  p_filesz := get32 file (o + 16)
  p_memsz := get32 file (o + 20)
  p_align := get32 file (o + 28)

def phdrs (file : Store) : List Phdr :=
  (List.range (get16 file 44)).map fun i => phdrAt file (get32 file 28 + 32 * i)

/-- `p_align-1` is computed in 32 bits. -/
def Phdr.mask (p : Phdr) : Nat := (p.p_align + 2 ^ 32 - 1) % 2 ^ 32

/-- `end_address`, a 64-bit integer. -/
def Phdr.endAddress (p : Phdr) : Nat :=
  (p.p_paddr + p.p_memsz + p.mask) % 2 ^ 64 &&& (2 ^ 64 - 1 - p.mask)

/-- A round of the first pass; `none` is `init == 0`. -/
def widen (r : Option (Nat × Nat)) (p : Phdr) : Option (Nat × Nat) :=
  if p.p_type = PT_LOAD then
    match r with
    | none => some (p.p_paddr, p.endAddress)
    | some (s, e) => some (if p.p_paddr < s then p.p_paddr else s,
        if e < p.endAddress then p.endAddress else e)
  else r

/-- A round of the second pass: memory, and the ranges that were written. -/
def place (file : Store) (r : Store × List (Nat × Nat)) (p : Phdr) : Store × List (Nat × Nat) :=
  if p.p_type = PT_LOAD then
    let r := (copy r.1 p.p_paddr file p.p_offset p.p_filesz, r.2 ++ [(p.p_paddr, p.p_filesz)])
    if p.p_filesz < p.p_memsz then
      (copy r.1 (p.p_paddr + p.p_filesz) (fill 0) 0 (p.p_memsz - p.p_filesz),
        r.2 ++ [(p.p_paddr + p.p_filesz, p.p_memsz - p.p_filesz)])
    else r
  else r

/-- What `RelocateELF` allocates, the ranges it writes, the memory then, and its result. -/
structure Relocated where
  alloc_start_address : Nat
  page_size : Nat
  writes : List (Nat × Nat)
  mem : Store
  relocateAddr : Nat

/-- `RelocateELF` on the image `file`; `none` when `AllocatePages` fails, and for an image without a
segment, where the range is not initialised. -/
def relocateELF (allocatePages : Nat → Nat → Bool) (file m : Store) : Option Relocated := do
  let (s, e) ← (phdrs file).foldl widen none
  let page_size := (e + 2 ^ 64 - s) % 2 ^ 64 / 4096 + 1
  guard (allocatePages s page_size)
  let (mem, writes) := (phdrs file).foldl (place file) (m, [])
  return { alloc_start_address := s, page_size, writes, mem, relocateAddr := get32 file 24 }

/-! ## The boot parameters -/

def BOOTPARAM : Nat := 0x50000

/-- The sizes of the fields of `struct boot_param`, in the loader: `kernel_entry`, `madt_addr`,
`graphic_config`, `bootstrap_gdt`, `bootstrap_gdt_desc`, `kernel_addr`. -/
def loaderFields : List Nat := [8, 8, 5 * 8, 3 * 8, 2 + 8, 8]

/-- And in the kernel: `kernel_entry`, `padding1`, `madt_addr`, `padding2` and the others. -/
def kernelFields : List Nat := [4, 4, 4, 4, 5 * 8, 3 * 8, 2 + 8, 8]

def field (sizes : List Nat) (k : Nat) : Nat := BOOTPARAM + (sizes.take k).sum

def sizeofBootParam : Nat := loaderFields.sum

def put64 (m : Store) (o x : Nat) : Store := put32 (put32 m o x) (o + 4) (x / 2 ^ 32)

/-- `struct graphic_config` of the loader. -/
structure GraphicConfig where
  frame_base : Nat
  frame_size : Nat
  horizontal_resolution : Nat
  vertical_resolution : Nat
  pixels_per_scan_line : Nat
deriving DecidableEq

def putGraphicConfig (m : Store) (o : Nat) (g : GraphicConfig) : Store :=
  put64 (put64 (put64 (put64 (put64 m o g.frame_base) (o + 8) g.frame_size) (o + 16)
    g.horizontal_resolution) (o + 24) g.vertical_resolution) (o + 32) g.pixels_per_scan_line

/-- The signature is `APIC`. -/
def isMadt (t : Store) : Bool := slice t 0 4 = [0x41, 0x50, 0x49, 0x43]

/-- `boot_param+sizeof(struct boot_param)`: so many structures after `boot_param`. -/
def madtAddr : Nat := BOOTPARAM + sizeofBootParam * sizeofBootParam

/-- A round of the loop over the tables of the XSDT. -/
def copyMadt (m t : Store) : Store :=
  if isMadt t then copy (put64 m (field loaderFields 1) madtAddr) madtAddr t 0 (madtLen t) else m

def putGdt (m : Store) (o limit base access flags : Nat) : Store :=
  put8 (put8 (put8 (put8 (put16 (put16 m o limit) (o + 2) base) (o + 4) (UInt8.ofNat (base / 2 ^ 16)))
    (o + 5) (UInt8.ofNat access)) (o + 6) (UInt8.ofNat flags)) (o + 7) (UInt8.ofNat (base / 2 ^ 24))

def setGdt (m : Store) (o type base lim : Nat) : Store :=
  putGdt m o (lim / 2 ^ 12) base (0x90 ||| type) (0xC0 ||| (lim / 2 ^ 28 % 16))

/-- The boot parameters as `UefiMain` stores them. -/
def fillBootParam (kernel : Nat) (g : GraphicConfig) (tables : List Store) (m : Store) : Store :=
  let gdt := field loaderFields 3
  let desc := field loaderFields 4
  let m := put64 m (field loaderFields 0) kernel
  let m := putGraphicConfig m (field loaderFields 2) g
  let m := tables.foldl copyMadt m
  let m := put64 m (field loaderFields 5) kernel
  let m := put64 (put16 m desc (8 * 3)) (desc + 2) gdt
  let m := putGdt m gdt 0 0 0 0
  let m := setGdt m (gdt + 8) (0x8 ||| 0x2) 0 0xffffffff
  setGdt m (gdt + 16) 0x2 0 0xffffffff

structure Gpu where
  pvram_addr : Nat
  vvram_addr : Nat
  vram_size : Nat
  horizontal_resolution : Nat
  vertical_resolution : Nat
  pixels_per_line : Nat
deriving DecidableEq

def DEVSPACE : Nat := 0xFE000000

/-- `graphic_init`: of each `long long` the low 32 bits are kept. -/
def graphicInit (m : Store) : Gpu :=
  let config := field kernelFields 4
  { pvram_addr := get32 m config
    vram_size := get32 m (config + 8)
    vvram_addr := (DEVSPACE + 2 ^ 32 - get32 m (config + 8)) % 2 ^ 32
    horizontal_resolution := get32 m (config + 16)
    vertical_resolution := get32 m (config + 24)
    pixels_per_line := get32 m (config + 32) }

/-- The table that `mpinit_uefi` walks. -/
def kernelMadt (m : Store) : Store := fun i => m (get32 m (field kernelFields 2) + i)

end Boot
