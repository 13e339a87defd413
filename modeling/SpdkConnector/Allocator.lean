import SpdkConnector.Word
import Mathlib.Data.List.Basic
import Mathlib.Algebra.BigOperators.Group.List.Basic

/-!
# The page allocator: `PageExtentAllocator` (page_extent_allocator.cpp)

`std::map<first_page, page_count>` is a list of extents in key order; `mapFind`, `mapErase` and
`mapEmplace` are the map operations the source uses. Every method returns the exception or the
value together with the state it leaves behind, because an exception does not roll the map back.

| here | there |
| --- | --- |
| `allocate` | `PageExtentAllocator::allocate` (:21), first fit over the free map, then `carve` (:49-60) |
| `release` | `PageExtentAllocator::release` (:65), one extent after the other |
| `insertFreeExtentLocked` | `insert_free_extent_locked` (:90), neighbour checks and coalescing |

The mutex is not here: the methods are the bodies of its critical sections.
-/

namespace SpdkConnector

/-- `PageExtent` (page_extent_allocator.h:12). -/
structure PageExtent where
  firstPage : Nat
  pageCount : Nat
deriving DecidableEq, Repr

/-- One past the last page. -/
def PageExtent.stop (e : PageExtent) : Nat := e.firstPage + e.pageCount

/-- `p` is one of the pages of `e`. -/
def PageExtent.Has (e : PageExtent) (p : Nat) : Prop := e.firstPage ≤ p ∧ p < e.stop

instance (e : PageExtent) (p : Nat) : Decidable (e.Has p) := inferInstanceAs (Decidable (_ ∧ _))

/-- `p` is a page of one of the extents. -/
def Covers (es : List PageExtent) (p : Nat) : Prop := ∃ e ∈ es, e.Has p

/-- The number of pages the extents list. -/
def pageSum (es : List PageExtent) : Nat := (es.map PageExtent.pageCount).sum

structure PageExtentAllocator where
  freeExtents : List PageExtent
  totalPageCount : Nat
  freePageCount : Nat
deriving DecidableEq, Repr

/-- The constructor (page_extent_allocator.cpp:13). -/
def PageExtentAllocator.new (pageCount : Nat) : Except Exn PageExtentAllocator :=
  if pageCount = 0 then throw ⟨.invalidArgument, "page allocator requires at least one page"⟩
  else pure ⟨[⟨0, pageCount⟩], pageCount, pageCount⟩

/-! ## The ordered map -/

def mapFind (m : List PageExtent) (k : Nat) : Option Nat :=
  (m.find? (·.firstPage == k)).map PageExtent.pageCount

def mapErase (m : List PageExtent) (k : Nat) : List PageExtent := m.filter (·.firstPage != k)

/-- `emplace`: an existing key keeps its value. -/
def mapEmplace : List PageExtent → Nat → Nat → List PageExtent
  | [], k, v => [⟨k, v⟩]
  | e :: m, k, v =>
    if k < e.firstPage then ⟨k, v⟩ :: e :: m
    else if k = e.firstPage then e :: m
    else e :: mapEmplace m k v

/-! ## `allocate` -/

/-- The first-fit scan (:35-42): the chosen extents and what is left of the request. -/
def firstFit : Nat → List PageExtent → List PageExtent × Nat
  | remaining, [] => ([], remaining)
  | remaining, e :: es =>
    let allocated := min remaining e.pageCount
    if remaining - allocated = 0 then ([⟨e.firstPage, allocated⟩], 0)
    else
      let r := firstFit (remaining - allocated) es
      (⟨e.firstPage, allocated⟩ :: r.1, r.2)

def corrupt : Exn := ⟨.logicError, "page allocator free extent accounting is corrupt"⟩

/-- Taking the chosen extents out of the map (:49-60). -/
def carve : List PageExtent → List PageExtent → Except Exn Unit × List PageExtent
  | m, [] => (.ok (), m)
  | m, e :: es =>
    match mapFind m e.firstPage with
    | none => (.error corrupt, m)
    | some oldCount =>
      if oldCount < e.pageCount then (.error corrupt, m)
      else
        let m := mapErase m e.firstPage
        if oldCount ≠ e.pageCount then
          carve (mapEmplace m (add64 e.firstPage e.pageCount) (sub64 oldCount e.pageCount)) es
        else carve m es

/-- `PageExtentAllocator::allocate` (:21). -/
def PageExtentAllocator.allocate (a : PageExtentAllocator) (pageCount : Nat) :
    Except Exn (List PageExtent) × PageExtentAllocator :=
  if pageCount = 0 then (.error ⟨.invalidArgument, "page allocation must not be empty"⟩, a)
  else if pageCount > a.freePageCount then
    (.error ⟨.runtimeError, "page allocator capacity exhausted"⟩, a)
  else
    let r := firstFit pageCount a.freeExtents
    if r.2 ≠ 0 then (.error corrupt, a)
    else
      match carve a.freeExtents r.1 with
      | (.error x, m) => (.error x, { a with freeExtents := m })
      | (.ok _, m) =>
        (.ok r.1, { a with freeExtents := m, freePageCount := sub64 a.freePageCount pageCount })

/-! ## `release` -/

def overlaps : Exn := ⟨.invalidArgument, "page extent release overlaps free space"⟩

/-- Merging with the previous extent when it ends where `extent` starts (:112-116). -/
def mergeLeft (previous : Option PageExtent) (extent : PageExtent) (m : List PageExtent) :
    PageExtent × List PageExtent :=
  match previous.filter (fun p => add64 p.firstPage p.pageCount == extent.firstPage) with
  | some p => (⟨p.firstPage, add64 extent.pageCount p.pageCount⟩, mapErase m p.firstPage)
  | none => (extent, m)

/-- Merging with the next extent when it starts where the released one ends (:117-120). -/
def mergeRight (next : Option PageExtent) (extentEnd : Nat) (left : PageExtent × List PageExtent) :
    PageExtent × List PageExtent :=
  match next.filter (fun n => extentEnd == n.firstPage) with
  | some n => (⟨left.1.firstPage, add64 left.1.pageCount n.pageCount⟩, mapErase left.2 n.firstPage)
  | none => left

/-- `insert_free_extent_locked` (:90). `before` ends with `std::prev(next)`, `after` starts with
`next = lower_bound(first_page)`. -/
def insertFreeExtentLocked (m : List PageExtent) (extent : PageExtent) :
    Except Exn (List PageExtent) := do
  let before := m.takeWhile (·.firstPage < extent.firstPage)
  let after := m.dropWhile (·.firstPage < extent.firstPage)
  let previous := before.getLast?
  let next := after.head?
  if previous.any (fun p => add64 p.firstPage p.pageCount > extent.firstPage) then throw overlaps
  let extentEnd := add64 extent.firstPage extent.pageCount
  if next.any (fun n => extentEnd > n.firstPage) then throw overlaps
  let merged := mergeRight next extentEnd (mergeLeft previous extent m)
  return mapEmplace merged.2 merged.1.firstPage merged.1.pageCount

/-- One round of the loop of `release` (:67-82). -/
def PageExtentAllocator.releaseOne (a : PageExtentAllocator) (e : PageExtent) :
    Except Exn Unit × PageExtentAllocator :=
  if e.pageCount = 0 ∨ e.firstPage > u64Max - e.pageCount ∨
      add64 e.firstPage e.pageCount > a.totalPageCount then
    (.error ⟨.invalidArgument, "invalid page extent release"⟩, a)
  else
    match insertFreeExtentLocked a.freeExtents e with
    | .error x => (.error x, a)
    | .ok m =>
      let a := { a with freeExtents := m }
      if a.freePageCount > u64Max - e.pageCount then
        (.error ⟨.overflowError, "page allocator free count overflows uint64_t"⟩, a)
      else (.ok (), { a with freePageCount := add64 a.freePageCount e.pageCount })

/-- `PageExtentAllocator::release` (:65). -/
def PageExtentAllocator.release (a : PageExtentAllocator) :
    List PageExtent → Except Exn Unit × PageExtentAllocator
  | [] => (.ok (), a)
  | e :: es =>
    match a.releaseOne e with
    | (.error x, a) => (.error x, a)
    | (.ok _, a) => a.release es

end SpdkConnector
