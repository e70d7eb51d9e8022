import TiFlash.Page.PageEntries
import TiFlash.Lib.FiberCard

/-!
# The page directory as a whole

What the page entries are for: ids refer to normal pages, and a page lives as long as some id refers to it.
No counts, deltas or tombstones appear here. `Tracks` relates the tables of an implementation to a
directory.
-/

namespace TiFlash.Page

open TiFlash.Lib Function

/-- A page directory. `data n` is the entry of the normal page `n`; its `ref` has no meaning here. -/
structure Directory where
  refs : PageId → Option PageId
  data : PageId → Option PageEntry
  finite : FiniteSupport refs
  live_iff : ∀ n, data n ≠ none ↔ ∃ i, refs i = some n

namespace Directory

variable (D : Directory)

/-- How many page ids refer to the page `n`. -/
noncomputable def count (n : PageId) : ℕ := fiberCard D.refs n

/-- No pages -/
def empty : Directory where
  refs _ := none
  data _ := none
  finite := by simp [FiniteSupport]
  live_iff := by simp

open Classical in
/-- Let `i` refer to the page `n` with the entry `entry`. A page that has lost its last reference goes
away. -/
noncomputable def bind (i n : PageId) (entry : PageEntry) : Directory where
  refs := update D.refs i (some n)
  data m :=
    if m = n then some entry
    else if ∃ j, update D.refs i (some n) j = some m then D.data m else none
  finite := D.finite.update i _
  live_iff m := by
    by_cases hm : m = n
    · subst hm
      simp only [if_true, ne_eq, reduceCtorEq, not_false_eq_true, true_iff]
      exact ⟨i, update_self ..⟩
    · rw [if_neg hm]
      split_ifs with hex
      · refine iff_of_true ((D.live_iff m).2 ?_) hex
        obtain ⟨j, hj⟩ := hex
        by_cases hji : j = i
        · subst hji
          rw [update_self] at hj
          exact absurd (Option.some.inj hj).symm hm
        · rw [update_of_ne hji] at hj
          exact ⟨j, hj⟩
      · exact iff_of_false (fun h => h rfl) hex

open Classical in
/-- Let `i` refer to nothing. -/
noncomputable def unbind (i : PageId) : Directory where
  refs := update D.refs i none
  data m := if ∃ j, update D.refs i none j = some m then D.data m else none
  finite := D.finite.update i _
  live_iff m := by
    split_ifs with hex
    · refine iff_of_true ((D.live_iff m).2 ?_) hex
      obtain ⟨j, hj⟩ := hex
      by_cases hji : j = i
      · subst hji
        simp at hj
      · rw [update_of_ne hji] at hj
        exact ⟨j, hj⟩
    · exact iff_of_false (fun h => h rfl) hex

/-- The page that the id stands for -/
def target (i : PageId) : PageId := (D.refs i).getD i

/-- What a record of an edit means. A reference to a page that does not live is ignored. -/
noncomputable def apply : EditRecord → Directory
  | .put i entry => D.bind i (D.target i) entry
  | .del i => D.unbind i
  | .ref i p =>
    match D.data (D.target p) with
    | none => D
    | some entry => D.bind i (D.target p) entry
  | .upsert _ _ => D

theorem live_of_refs {i n : PageId} (h : D.refs i = some n) :
    ∃ entry, D.data n = some entry :=
  Option.ne_none_iff_exists'.1 ((D.live_iff n).2 ⟨i, h⟩)

theorem count_pos_iff (n : PageId) : 0 < D.count n ↔ D.data n ≠ none :=
  (fiberCard_pos_iff D.finite).trans (D.live_iff n).symm

theorem count_eq_zero {n : PageId} (h : D.data n = none) : D.count n = 0 :=
  Nat.eq_zero_of_not_pos fun hpos => (D.count_pos_iff n).1 hpos h

end Directory

/-! ### Tables that hold a directory -/

/-- A live page has its reference count; nothing or, where `tombs` allows it, a tombstone stands for any
other. -/
def Holds (tombs : Bool) (count : ℕ) (data page : Option PageEntry) : Prop :=
  match data with
  | some entry => page = some { entry with ref := UInt32.ofNat count }
  | none => page = none ∨ tombs = true ∧ ∃ entry, page = some entry ∧ entry.ref = 0

/-- The maps of a view stand for the directory. -/
structure Tracks (tombs : Bool) (refs : PageId → Option PageId) (pages : PageId → Option PageEntry)
    (D : Directory) : Prop where
  refs_eq : refs = D.refs
  fits : ∀ n, D.count n < 2 ^ 32
  holds : ∀ n, Holds tombs (D.count n) (D.data n) (pages n)

/-- A page loses a reference: with its last one it goes away or becomes a tombstone. -/
def Dropped (tombs : Bool) (page page' : Option PageEntry) : Prop := ∃ entry, page = some entry ∧
    if entry.ref = 1 then page' = none ∨ tombs = true ∧ page' = some { entry with ref := 0 }
    else page' = some { entry with ref := entry.ref - 1 }

end TiFlash.Page
