import Eterna.Library.TableWalk
import Eterna.Memory.Paging
import Eterna.Memory.Physical

/-!
# The virtual memory manager

The functions of `virtual_memory_manager.cc`, on a machine that consists of the page allocator, the
physical memory, and the two registers that name the active page map.  Page tables are accessed at
their physical addresses, as the identity mapping of the kernel makes it.
-/

namespace Eterna

open TableWalk

/-- The state the memory managers work on. -/
structure Machine where
  /-- The globals of the physical memory manager. -/
  pmm : PhysicalMemoryManager
  /-- Physical memory. -/
  ram : PhysicalMemory
  /-- `ActivePageMap`. -/
  activePageMap : ℕ
  /-- The control register `cr3`. -/
  cr3 : ℕ

/-- The frame of a page-aligned pointer. -/
abbrev frameOf (address : ℕ) : ℕ := address >>> 12

/-- `mappingFlags & flag`. -/
def hasFlag (mappingFlags : BitVec 64) (f : PageTableFlag) : Bool :=
  decide (mappingFlags &&& f.value ≠ 0#64)

/-- The ten `set_flag` calls of `map`, in the order of the source.  The last one sets `Global`
again, to the no-execute bit of `mappingFlags`. -/
def PageDirectoryEntry.setFlags (e : PageDirectoryEntry) (mappingFlags : BitVec 64) :
    PageDirectoryEntry :=
  ((((((((((e.setFlag .present (hasFlag mappingFlags .present)).setFlag
    .readWrite (hasFlag mappingFlags .readWrite)).setFlag
    .userSuper (hasFlag mappingFlags .userSuper)).setFlag
    .writeThrough (hasFlag mappingFlags .writeThrough)).setFlag
    .cacheDisabled (hasFlag mappingFlags .cacheDisabled)).setFlag
    .accessed (hasFlag mappingFlags .accessed)).setFlag
    .dirty (hasFlag mappingFlags .dirty)).setFlag
    .largerPages (hasFlag mappingFlags .largerPages)).setFlag
    .global (hasFlag mappingFlags .global)).setFlag
    .global (hasFlag mappingFlags .nx))

namespace Machine

/-- `request_page` on the machine. -/
def requestPage (s : Machine) : Machine × ℕ :=
  let r := s.pmm.requestPage
  ({ s with pmm := r.1 }, r.2)

/-- `memset(page, 0, PAGE_SIZE)`. -/
def clearPage (s : Machine) (page : ℕ) : Machine :=
  { s with ram := fill s.ram (frameOf page) PageTable.zero }

/-- `memcpy(src, dest, PAGE_SIZE)`, which does nothing when one of the pointers is null. -/
def copyPage (s : Machine) (src dest : ℕ) : Machine :=
  if dest ≠ 0 ∧ src ≠ 0 then { s with ram := fill s.ram (frameOf dest) (s.ram (frameOf src)) }
  else s

/-- `table->entries[index] = e`. -/
def store (s : Machine) (table : ℕ) (index : Fin 512) (e : PageDirectoryEntry) : Machine :=
  { s with ram := write s.ram (frameOf table) index e }

/-- The block that `map` repeats for each of the three upper levels: make sure the entry has a
table below it, overwrite its flags, and step down to that table. -/
def nextTable (s : Machine) (table : ℕ) (index : Fin 512) (mappingFlags : BitVec 64) :
    Machine × ℕ :=
  let pde := s.ram (frameOf table) index
  if pde.flag .present then
    let pde := pde.setFlags mappingFlags
    (s.store table index pde, pde.address <<< 12)
  else
    let r := s.requestPage
    let pde := (pde.setAddress (frameOf r.2)).setFlags mappingFlags
    ((r.1.clearPage r.2).store table index pde, pde.address <<< 12)

/-- `map(pageMapLevelFour, virtualAddress, physicalAddress, mappingFlags)`. -/
def map (s : Machine) (pageMapLevelFour virtualAddress physicalAddress : ℕ)
    (mappingFlags : BitVec 64) : Machine :=
  if pageMapLevelFour = 0 then s
  else
    let indexer := PageMapIndexer.ofAddress virtualAddress
    let pdp := s.nextTable pageMapLevelFour indexer.pageDirectoryPointer mappingFlags
    let pd := pdp.1.nextTable pdp.2 indexer.pageDirectory mappingFlags
    let pt := pd.1.nextTable pd.2 indexer.pageTable mappingFlags
    let pde := pt.1.ram (frameOf pt.2) indexer.page
    pt.1.store pt.2 indexer.page
      ((pde.setAddress (physicalAddress >>> 12)).setFlags mappingFlags)

/-- `unmap(pageMapLevelFour, virtualAddress)`. -/
def unmap (s : Machine) (pageMapLevelFour virtualAddress : ℕ) : Machine :=
  let indexer := PageMapIndexer.ofAddress virtualAddress
  let pdp := (s.ram (frameOf pageMapLevelFour) indexer.pageDirectoryPointer).address <<< 12
  let pd := (s.ram (frameOf pdp) indexer.pageDirectory).address <<< 12
  let pt := (s.ram (frameOf pd) indexer.pageTable).address <<< 12
  s.store pt indexer.page ((s.ram (frameOf pt) indexer.page).setFlag .present false)

/-- `flush_page_map`. -/
def flushPageMap (s : Machine) (pageMapLevelFour : ℕ) : Machine :=
  { s with cr3 := pageMapLevelFour, activePageMap := pageMapLevelFour }

/-- `active_page_map`: the cached pointer, read from `cr3` the first time. -/
def readActivePageMap (s : Machine) : Machine × ℕ :=
  if s.activePageMap = 0 then ({ s with activePageMap := s.cr3 }, s.cr3) else (s, s.activePageMap)

/-- The loop shared by the levels of `clone_active_page_map`: give every present entry of
`oldTable` a copy of the table below it, and store the entry, redirected, in `newTable`.
`copyChild` copies the table below and returns `nullptr` when a page is missing; the result says
whether the loop ran to its end. -/
def cloneEntries (copyChild : Machine → ℕ → Machine × ℕ) (oldTable newTable : ℕ) :
    List (Fin 512) → Machine → Machine × Bool
  | [], s => (s, true)
  | i :: is, s =>
    let pde := s.ram (frameOf oldTable) i
    if pde.flag .present = false then cloneEntries copyChild oldTable newTable is s
    else
      let r := copyChild s (pde.address <<< 12)
      if r.2 = 0 then (r.1, false)
      else
        let pde := r.1.ram (frameOf oldTable) i
        cloneEntries copyChild oldTable newTable is
          (r.1.store newTable i (pde.setAddress (frameOf r.2)))

/-- The copy of a lowest-level table. -/
def clonePageTable (s : Machine) (oldTable : ℕ) : Machine × ℕ :=
  let r := s.requestPage
  if r.2 = 0 then r else (r.1.copyPage oldTable r.2, r.2)

/-- The copy of a table of one of the two middle levels.  The new page is used as it comes. -/
def cloneTable (copyChild : Machine → ℕ → Machine × ℕ) (s : Machine) (oldTable : ℕ) :
    Machine × ℕ :=
  let r := s.requestPage
  if r.2 = 0 then r
  else
    let c := cloneEntries copyChild oldTable r.2 (List.finRange 512) r.1
    if c.2 then (c.1, r.2) else (c.1, 0)

/-- `clone_active_page_map`. -/
def cloneActivePageMap (s : Machine) : Machine × ℕ :=
  let a := s.readActivePageMap
  let r := a.1.requestPage
  if r.2 = 0 then r
  else
    let c := cloneEntries (cloneTable (cloneTable clonePageTable)) a.2 r.2 (List.finRange 512)
      (r.1.clearPage r.2)
    if c.2 then (c.1, r.2) else (c.1, 0)

/-- `n` iterations of a loop that maps one page each. -/
def mapPages (pageMap : ℕ) (mappingFlags : BitVec 64) (virtualAddress physicalAddress : ℕ → ℕ) :
    ℕ → Machine → Machine
  | 0, s => s
  | i + 1, s =>
    (mapPages pageMap mappingFlags virtualAddress physicalAddress i s).map pageMap
      (virtualAddress i) (physicalAddress i) mappingFlags

/-- `Present | ReadWrite`. -/
def presentWrite : BitVec 64 := PageTableFlag.present.value ||| PageTableFlag.readWrite.value

/-- `Present | ReadWrite | Global`. -/
def presentWriteGlobal : BitVec 64 := presentWrite ||| PageTableFlag.global.value

/-- The number of pages in the kernel window of `init_virtual`. -/
def kernelWindowPages (image : KernelImage) : ℕ :=
  pageSteps kernelPhysical (kernelPhysical + (1 + image.byteCount) + pageSize)

/-- `n` iterations of the first loop of `init_virtual`: page `i` at its physical address. -/
def identityLoop (s : Machine) (pageMap n : ℕ) : Machine :=
  mapPages pageMap presentWrite (· * pageSize) (· * pageSize) n s

/-- The virtual address of page `i` of the kernel window. -/
def kernelAddress (i : ℕ) : ℕ := add64 (kernelPhysical + i * pageSize) kernelVirtual

/-- `n` iterations of the second loop of `init_virtual`: page `i` of the kernel window. -/
def kernelLoop (s : Machine) (pageMap n : ℕ) : Machine :=
  mapPages pageMap presentWriteGlobal kernelAddress (kernelPhysical + · * pageSize) n s

/-- The two loops of `init_virtual`. -/
def mapLoops (s : Machine) (image : KernelImage) (pageMap : ℕ) : Machine :=
  (s.identityLoop pageMap (pageSteps 0 s.pmm.totalRam)).kernelLoop pageMap
    (kernelWindowPages image)

/-- `init_virtual(pageMap)`.  The null page is unmapped from `ActivePageMap`. -/
def initVirtual (s : Machine) (image : KernelImage) (pageMap : ℕ) : Machine :=
  let mapped := s.mapLoops image pageMap
  (mapped.unmap mapped.activePageMap 0).flushPageMap pageMap

/-- `init_virtual()`. -/
def initVirtualFresh (s : Machine) (image : KernelImage) : Machine :=
  let r := s.requestPage
  r.1.initVirtual image r.2

end Machine

end Eterna
