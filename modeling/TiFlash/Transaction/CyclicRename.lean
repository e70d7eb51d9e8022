import Mathlib.Data.Finset.Card
import TiFlash.Lib.HashMap

/-!
# Renaming in the right order (`CyclicRenameResolver`)

The resolver walks from a name along its new names and emits the renames on the way back; a cycle is broken
with a temporary name.
-/

namespace TiFlash.Transaction.CyclicRenameResolver

open TiFlash.Lib

/-- `NameMap`, in the order in which the loop visits it. -/
abbrev NameMap (Name : Type) := HashMap Name Name

variable {Name : Type} [DecidableEq Name] [Inhabited Name] (nameGen : Name → Name)

/-- `resolveImpl` at the entry from `originName` to `targetName`, with the visited names and the emitted
pairs. The pair returned is that of a broken cycle, and `NamePair()` otherwise. -/
def resolveImpl (renameMap : NameMap Name) (visited : Finset Name) (originName targetName : Name) :
    (Name × Name) × Finset Name × List (Name × Name) :=
  match _h : renameMap.lookup targetName with
  | none => ((default, default), insert originName visited, [(originName, targetName)])
  | some next =>
    if _hvisited : targetName ∈ insert originName visited then
      ((targetName, nameGen targetName), insert originName visited,
        [(targetName, nameGen targetName), (originName, targetName)])
    else
      let (pair, visited, result) := resolveImpl renameMap (insert originName visited) targetName next
      (pair, visited, result ++ [(if pair.1 = originName then pair.2 else originName, targetName)])
termination_by (renameMap.keys.toFinset \ insert originName visited).card
decreasing_by
  have hmem : targetName ∈ renameMap.keys.toFinset := List.mem_toFinset.2 (HashMap.mem_iff_lookup.2 ⟨_, _h⟩)
  refine Finset.card_lt_card ⟨Finset.sdiff_subset_sdiff subset_rfl (Finset.subset_insert _ _), fun hsub => ?_⟩
  exact (Finset.mem_sdiff.1 (hsub (Finset.mem_sdiff.2 ⟨hmem, _hvisited⟩))).2 (Finset.mem_insert_self _ _)

/-- The loop of `resolve`. -/
def resolveLoop (renameMap : NameMap Name) (visited : Finset Name) :
    List (Sigma fun _ : Name => Name) → List (Name × Name)
  | [] => []
  | ⟨originName, targetName⟩ :: entries =>
    if originName ∈ visited then resolveLoop (renameMap.erase originName) visited entries
    else
      let (_, visited, result) := resolveImpl nameGen renameMap visited originName targetName
      result ++ resolveLoop (renameMap.erase originName) visited entries

def resolve (renameMap : NameMap Name) : List (Name × Name) :=
  resolveLoop nameGen renameMap ∅ renameMap.entries

end TiFlash.Transaction.CyclicRenameResolver
