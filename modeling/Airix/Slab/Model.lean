import Airix.Lib.Rings
import Airix.Pmm.Buddy

/-!
# The slab allocator (`mm/slab.c`)

A slab page is named by its virtual address. A `struct kmem_cache` is one of the static ones or the object
at which `slab_create_kmem_cache` built it. `free` holds the whole pointer array, entries at and above `avail`
are stale.
-/

namespace Airix.Slab

/-- Which `struct kmem_cache`. -/
inductive Cache
  | cacheCache
  | kmalloc (index : Nat)
  | created (object : Nat)
deriving DecidableEq, Repr

inductive SlabList
  | fullSlab
  | partialSlab
  | freeSlab
deriving DecidableEq, Repr

/-- A `struct slab_page` as a list node: a list head inside a cache, or the start of a page. -/
inductive Node
  | head (cache : Cache) (list : SlabList)
  | page (slab : Nat)
deriving DecidableEq, Repr

structure SlabPage where
  avail : Nat
  limit : Nat
  objectBase : Nat
  cache : Cache
  free : Nat → Nat

structure KmemCache where
  objectSize : Nat
  size : Nat
  align : Nat
deriving DecidableEq, Repr

structure State where
  pmm : Pmm.State
  slabs : Nat → SlabPage
  caches : Cache → KmemCache
  links : Links Node
  cacheLinks : Links Cache

inductive Panic
  /-- "alloc a physical page failed." -/
  | noPage
  /-- "Fatal error, alloc object from full slab." -/
  | allocFromFull
  /-- "Fatal error, alloc object fail from a new slab." -/
  | allocFromNew
  /-- "Fatal error, free object in wrong cache." -/
  | wrongCache
  /-- "kmalloc: can not alloc memory for more than 1024." -/
  | tooLarge
  /-- A null pointer inside `pmm_alloc_pages`. -/
  | fault
deriving DecidableEq, Repr

def sizeofPtr : Nat := 4
def sizeofSlabPage : Nat := 28
def sizeofKmemCache : Nat := 104

/-- `VIRT_TO_PAGE`. -/
def virtToPage (virt : Nat) : Nat := virt / pageSize * pageSize

def kmallocSizes : List Nat := [4, 8, 16, 32, 64, 128, 256, 512, 1024]

/-- The static initialisers. -/
def initCaches : Cache → KmemCache
  | .cacheCache => ⟨sizeofKmemCache, sizeofKmemCache, sizeofPtr⟩
  | .kmalloc i => ⟨kmallocSizes.getD i 0, kmallocSizes.getD i 0, sizeofPtr⟩
  | .created _ => ⟨0, 0, 0⟩

def initLinks : Links Node where
  next n := match n with
    | .head (.created _) _ | .page _ => none
    | n => some n
  prev n := match n with
    | .head (.created _) _ | .page _ => none
    | n => some n

def initState (pmm : Pmm.State) : State where
  pmm := pmm
  slabs := fun _ => ⟨0, 0, 0, .cacheCache, fun _ => 0⟩
  caches := initCaches
  links := initLinks
  cacheLinks := ⟨some, some⟩

def setSlab (s : State) (slab : Nat) (x : SlabPage) : State :=
  { s with slabs := Function.update s.slabs slab x }

/-- `slab_list_remove` and `slab_list_insert` on another list of the same cache. -/
def moveSlab (s : State) (slab : Nat) (cache : Cache) (list : SlabList) : State :=
  { s with links := (s.links.unlink (.page slab)).insertFront (.head cache list) (.page slab) }

/-! ### Slab pages -/

/-- The loop of `init_slab_page`. -/
def storeObjects (size : Nat) (x : SlabPage) : SlabPage :=
  (List.range x.limit).foldl
    (fun x i => { x with free := Function.update x.free x.avail (x.objectBase + i * size), avail := x.avail + 1 }) x

def slabLimit (size : Nat) : Nat := (pageSize - (sizeofSlabPage - sizeofPtr)) / (size + sizeofPtr)

def initSlabPage (s : State) (cache : Cache) (slab : Nat) : State :=
  let size := (s.caches cache).size
  let limit := slabLimit size
  let x : SlabPage := ⟨0, limit, slab + (pageSize - limit * size), cache, (s.slabs slab).free⟩
  let s := setSlab s slab (storeObjects size x)
  { s with links := s.links.insertFront (.head cache .freeSlab) (.page slab) }

def allocSlabPage (s : State) (cache : Cache) : Except Panic (Nat × State) :=
  match Pmm.pmmAllocPages s.pmm 0 with
  | none => .error .fault
  | some (pageNum, pmm) =>
    let page := pageAddress pageNum
    if page = 0 then .error .noPage
    else
      let slab := castPhysicalToVirtual page
      .ok (slab, initSlabPage { s with pmm := pmm } cache slab)

/-! ### Objects -/

def allocObjectFromSlab (s : State) (slab : Nat) : Except Panic (Nat × State) :=
  let x := s.slabs slab
  if x.avail = 0 then .error .allocFromFull
  else
    let x := { x with avail := x.avail - 1 }
    let object := x.free x.avail
    let s := setSlab s slab x
    .ok (object,
      if x.avail = 0 then moveSlab s slab x.cache .fullSlab
      else if x.avail + 1 = x.limit then moveSlab s slab x.cache .partialSlab
      else s)

/-- The object is 0, the null pointer, when the list is empty. -/
def allocObjectFromSlabList (s : State) (cache : Cache) (list : SlabList) : Except Panic (Nat × State) :=
  match s.links.next (.head cache list) with
  | some (.page slab) => allocObjectFromSlab s slab
  | _ => .ok (0, s)

/-- The last part of `alloc_object`: a new slab. -/
def allocObjectFromNewSlab (s : State) (cache : Cache) : Except Panic (Nat × State) := do
  let (slab, s) ← allocSlabPage s cache
  let (object, s) ← allocObjectFromSlab s slab
  if object = 0 then .error .allocFromNew else .ok (object, s)

def allocObject (s : State) (cache : Cache) : Except Panic (Nat × State) := do
  let (object, s) ← allocObjectFromSlabList s cache .partialSlab
  if object ≠ 0 then return (object, s)
  let (object, s) ← allocObjectFromSlabList s cache .freeSlab
  if object ≠ 0 then return (object, s)
  allocObjectFromNewSlab s cache

def freeObject (s : State) (cache : Cache) (object : Nat) : Except Panic State :=
  let slab := virtToPage object
  let x := s.slabs slab
  if x.cache ≠ cache then .error .wrongCache
  else
    let x := { x with free := Function.update x.free x.avail object, avail := x.avail + 1 }
    let s := setSlab s slab x
    .ok (if x.avail = 1 ∧ x.avail < x.limit then moveSlab s slab cache .partialSlab
      else if x.avail = x.limit then moveSlab s slab cache .freeSlab
      else s)

/-! ### The interface -/

def slabCreateKmemCache (s : State) (objectSize align : Nat) : Except Panic (Nat × State) := do
  let (object, s) ← allocObject s .cacheCache
  let cache := Cache.created object
  return (object, { s with
    caches := Function.update s.caches cache ⟨objectSize, Airix.align objectSize align, align⟩
    links := ((s.links.init (.head cache .fullSlab)).init (.head cache .partialSlab)).init (.head cache .freeSlab)
    cacheLinks := s.cacheLinks.insertFront .cacheCache cache })

def slabAlloc (s : State) (cache : Cache) : Except Panic (Nat × State) := allocObject s cache

def slabFree (s : State) (cache : Cache) (object : Nat) : Except Panic State := freeObject s cache object

def kmallocIndex (size : Nat) : Except Panic Nat :=
  if size ≤ 4 then .ok 0
  else if size ≤ 8 then .ok 1
  else if size ≤ 16 then .ok 2
  else if size ≤ 32 then .ok 3
  else if size ≤ 64 then .ok 4
  else if size ≤ 128 then .ok 5
  else if size ≤ 256 then .ok 6
  else if size ≤ 512 then .ok 7
  else if size ≤ 1024 then .ok 8
  else .error .tooLarge

def kmalloc (s : State) (size : Nat) : Except Panic (Nat × State) := do
  let index ← kmallocIndex size
  allocObject s (.kmalloc index)

def kfree (s : State) (ptr : Nat) : Except Panic State := freeObject s (s.slabs (virtToPage ptr)).cache ptr

end Airix.Slab
