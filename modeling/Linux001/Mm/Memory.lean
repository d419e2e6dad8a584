import Linux001.ProofKit.Sizes

/-! The page allocator and the page tables of `mm/memory.c`. Physical memory is a map from page
addresses to 512 words, with `mem_map` beside it. `invalidate` and `printk` have no effect on this
state. -/

namespace Linux001.Mm

open Function

def lowMem : Nat := 0x200000

def highMemory : Nat := 0x800000

def pagingPages : Nat := (highMemory - lowMem) / 4096

def mapNr (addr : Nat) : Nat := (addr - lowMem) / 4096

abbrev Word := BitVec 64

def pagePresent : Word := 0x001
def pageWrite : Word := 0x002
def pageUser : Word := 0x004

def pml4Addr : Nat := 0x1000

def pml4Index (addr : Nat) : Fin 512 := Fin.ofNat 512 (addr / 2 ^ 39)
def pdptIndex (addr : Nat) : Fin 512 := Fin.ofNat 512 (addr / 2 ^ 30)
def pdIndex (addr : Nat) : Fin 512 := Fin.ofNat 512 (addr / 2 ^ 21)
def ptIndex (addr : Nat) : Fin 512 := Fin.ofNat 512 (addr / 2 ^ 12)

def pteAddr (pte : Word) : Nat := (pte &&& 0x000FFFFFFFFFF000).toNat

def present (pte : Word) : Bool := pte &&& pagePresent != 0

/-- `page | PAGE_PRESENT | PAGE_WRITE | PAGE_USER`. -/
def entry (page : Nat) : Word := BitVec.ofNat 64 page ||| pagePresent ||| pageWrite ||| pageUser

structure Memory where
  memMap : Nat → UInt16
  mem : Nat → Fin 512 → Word

namespace Memory

@[simps -fullyApplied]
def store (s : Memory) (page : Nat) (i : Fin 512) (w : Word) : Memory :=
  { s with mem := update s.mem page (update (s.mem page) i w) }

@[simps -fullyApplied]
def setPage (s : Memory) (page : Nat) (words : Fin 512 → Word) : Memory :=
  { s with mem := update s.mem page words }

@[simps -fullyApplied]
def setCount (s : Memory) (i : Nat) (n : UInt16) : Memory :=
  { s with memMap := update s.memMap i n }

end Memory

inductive Panic
  | nonexistentPage
  | freeFreePage
  | freeWrongAlignment
  | swapperSpace
  | copyWrongAlignment
  | separateCodeAndData
  | badDataLimit
  deriving DecidableEq

inductive Outcome
  | ret (s : Memory)
  | exit (s : Memory)

def Outcome.state : Outcome → Memory
  | .ret s | .exit s => s

def findFree (memMap : Nat → UInt16) : Nat → Option Nat
  | 0 => none
  | i + 1 => if memMap i = 0 then some i else findFree memMap i

/-- `get_free_page`.  The result is `none` where it returns 0. -/
def getFreePage (s : Memory) : Option (Nat × Memory) :=
  (findFree s.memMap pagingPages).map fun i =>
    let page := lowMem + i * 4096
    (page, (s.setCount i 1).setPage page fun _ => 0)

def freePage (s : Memory) (addr : Nat) : Except Panic Memory :=
  if addr < lowMem then .ok s
  else if highMemory < addr then .error .nonexistentPage
  else if s.memMap (mapNr addr) ≠ 0 then .ok (s.setCount (mapNr addr) (s.memMap (mapNr addr) - 1))
  else .error .freeFreePage

def pointer (addr : Nat) : Option Nat := if addr = 0 then none else some addr

/-- The table that entry `i` of `table` points to. -/
def nextTable (s : Memory) (table : Nat) (i : Fin 512) (create : Bool) : Option Nat × Memory :=
  let e := s.mem table i
  if present e then (pointer (pteAddr e), s)
  else if !create then (none, s)
  else
    match getFreePage s with
    | none => (none, s)
    | some (page, s) => (some page, s.store table i (entry page))

def getPdpt (s : Memory) (addr : Nat) (create : Bool) : Option Nat × Memory :=
  nextTable s pml4Addr (pml4Index addr) create

def getPd (s : Memory) (addr : Nat) (create : Bool) : Option Nat × Memory :=
  match getPdpt s addr create with
  | (none, s) => (none, s)
  | (some pdpt, s) => nextTable s pdpt (pdptIndex addr) create

def getPt (s : Memory) (addr : Nat) (create : Bool) : Option Nat × Memory :=
  match getPd s addr create with
  | (none, s) => (none, s)
  | (some pd, s) => nextTable s pd (pdIndex addr) create

def getPte (s : Memory) (addr : Nat) (create : Bool) : Option (Nat × Fin 512) × Memory :=
  match getPt s addr create with
  | (none, s) => (none, s)
  | (some pt, s) => (some (pt, ptIndex addr), s)

def roundUp (size : Nat) : Nat := (size + 0x1FFFFF) / 0x200000 * 0x200000

def freePte (s : Memory) (addr : Nat) : Except Panic Memory :=
  match getPte s addr false with
  | (none, s) => .ok s
  | (some (t, i), s) =>
    if !present (s.mem t i) then .ok s
    else
      (if lowMem ≤ pteAddr (s.mem t i) then freePage s (pteAddr (s.mem t i)) else .ok s).map
        fun s => s.store t i 0

def freeLoop : Nat → Memory → Nat → Except Panic Memory
  | 0, s, _ => .ok s
  | n + 1, s, addr => (freePte s addr).bind fun s => freeLoop n s (addr + 0x1000)

/-- `free_page_tables`.  Where `from + size` overflows, its loop ends at once. -/
def freePageTables (s : Memory) (start size : Nat) : Except Panic Memory :=
  if start % 0x200000 ≠ 0 then .error .freeWrongAlignment
  else if start = 0 then .error .swapperSpace
  else if 2 ^ 64 ≤ start + roundUp size then .ok s
  else freeLoop (roundUp size / 0x1000) s start

/-- The body of the loop of `copy_page_tables`, `false` where it returns -1. -/
def copyPte (s : Memory) (src dst : Nat) : Bool × Memory :=
  match getPte s src false with
  | (none, s) => (true, s)
  | (some (ft, fi), s) =>
    if !present (s.mem ft fi) then (true, s)
    else
      match getPte s dst true with
      | (none, s) => (false, s)
      | (some (tt, ti), s) =>
        let thisPage := s.mem ft fi &&& ~~~pageWrite
        let phys := pteAddr thisPage
        let s := s.store tt ti thisPage
        if lowMem ≤ phys then
          (true, (s.store ft fi thisPage).setCount (mapNr phys) (s.memMap (mapNr phys) + 1))
        else (true, s)

def copyLoop : Nat → Memory → Nat → Nat → Bool × Memory
  | 0, s, _, _ => (true, s)
  | n + 1, s, src, dst =>
    match copyPte s src dst with
    | (false, s) => (false, s)
    | (true, s) => copyLoop n s (src + 0x1000) (dst + 0x1000)

/-- `copy_page_tables`, for sizes that do not overflow; `false` is -1. -/
def copyPageTables (s : Memory) (src dst size : Nat) : Except Panic (Bool × Memory) :=
  if src % 0x200000 ≠ 0 ∨ dst % 0x200000 ≠ 0 then .error .copyWrongAlignment
  else .ok (copyLoop (roundUp size / 0x1000) s src dst)

def putPage (s : Memory) (page address : Nat) : Option Nat × Memory :=
  match getPte s address true with
  | (none, s) => (none, s)
  | (some (t, i), s) => (pointer page, s.store t i (entry page))

def unWpPage (s : Memory) (t : Nat) (i : Fin 512) : Outcome :=
  let oldPage := pteAddr (s.mem t i)
  if lowMem ≤ oldPage ∧ s.memMap (mapNr oldPage) = 1 then
    .ret (s.store t i (s.mem t i ||| pageWrite))
  else
    match getFreePage s with
    | none => .exit s
    | some (newPage, s) =>
      let s :=
        if lowMem ≤ oldPage then s.setCount (mapNr oldPage) (s.memMap (mapNr oldPage) - 1) else s
      let s := s.store t i (entry newPage)
      .ret (s.setPage newPage (s.mem oldPage))

def doWpPage (s : Memory) (address : Nat) : Outcome :=
  match getPte s address false with
  | (none, s) => .ret s
  | (some (t, i), s) => unWpPage s t i

def writeVerify (s : Memory) (address : Nat) : Outcome :=
  match getPte s address false with
  | (none, s) => .ret s
  | (some (t, i), s) =>
    if s.mem t i &&& (pagePresent ||| pageWrite) = pagePresent then unWpPage s t i else .ret s

def doNoPage (s : Memory) (address : Nat) : Outcome :=
  match getFreePage s with
  | none => .exit s
  | some (page, s) =>
    match putPage s page address with
    | (none, s) => .exit s
    | (some _, s) => .ret s

/-- What `setup_paging` writes: the tables that map the first 16MB. -/
structure Booted (s : Memory) : Prop where
  free : ∀ i < pagingPages, s.memMap i = 0
  pml4 : ∀ i, s.mem 0x1000 i = if i = 0 then entry 0x2000 else 0
  pdpt : ∀ i, s.mem 0x2000 i = if i = 0 then entry 0x3000 else 0
  pd : ∀ i, s.mem 0x3000 i = if i.val < 8 then entry (0x4000 + 0x1000 * i.val) else 0
  pt : ∀ k < 8, ∀ i, s.mem (0x4000 + 0x1000 * k) i = entry (0x1000 * (512 * k + i.val))

end Linux001.Mm
