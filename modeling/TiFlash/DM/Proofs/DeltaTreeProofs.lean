import TiFlash.DM.DeltaTree
import TiFlash.Lib.ExceptBind

/-!
# Proofs: edits and memory of delta trees

An edit checks its arguments first, and the id that it stores after it has changed the counters. The repair
counts the nodes that it creates and frees, so `bytes` stays the size of the nodes, also if `checkId` rejects
the edit. A swap exchanges the nodes of two trees and not what they count.
-/

namespace TiFlash.DM

open TiFlash.Lib List Option Except DeltaTree

/-! ## Rejected edits -/

/-- An argument of the edit is out of the range of ids. -/
def TreeEdit.IllegalArgument : TreeEdit → Prop
  | insert rid tupleId => 2 ^ 32 - 1 ≤ rid ∨ 2 ^ 32 - 1 ≤ tupleId
  | delete rid => 2 ^ 32 - 1 ≤ rid

variable {id : Nat}

theorem checkId_of_lt (h : ¬ 2 ^ 32 - 1 ≤ id) : checkId id = .ok id := if_neg h

theorem checkId_of_le (h : 2 ^ 32 - 1 ≤ id) : checkId id = .error .illegalId := if_pos h

namespace DeltaTree

variable {z : TreeParams} {t : DeltaTree} {s : Option TreeState} {e : TreeError}

theorem snd_of_update_eq_error {k : Nat} {entries : List DTEntry}
    (h : t.update z k entries = .error (e, s)) : s = none := by
  unfold update at h
  cases hres : t.afterLeafUpdated z k entries with
  | error e' =>
    rw [hres] at h
    cases h
    rfl
  | ok t' =>
    rw [hres] at h
    cases h

theorem addInsert_error {rid tupleId : Nat} (h : t.addInsert z rid tupleId = .error (e, s))
    (hlegal : ¬ (TreeEdit.insert rid tupleId).IllegalArgument) : s ≠ some t.state := by
  obtain ⟨hrid, htuple⟩ := not_or.1 hlegal
  rw [addInsert, checkId_of_lt hrid] at h
  simp only [bind, Except.bind, checkId_of_lt htuple] at h
  split at h
  · rintro rfl
    simp [state] at h
  · rw [snd_of_update_eq_error h]
    exact (some_ne_none _).symm

theorem addDelete_error {rid : Nat}
    (h : t.addDelete z rid = .error (e, s)) (hlegal : ¬ (TreeEdit.delete rid).IllegalArgument) :
    s ≠ some t.state := by
  rw [addDelete, checkId_of_lt hlegal] at h
  simp only at h
  split at h
  · rw [snd_of_update_eq_error h]
    exact (some_ne_none _).symm
  · rw [snd_of_update_eq_error h]
    exact (some_ne_none _).symm
  · split at h
    · rintro rfl
      simp [state] at h
    · rw [snd_of_update_eq_error h]
      exact (some_ne_none _).symm

/-- A rejected edit leaves the tree as it was exactly when an argument was rejected, and not the id that it
was about to store. -/
theorem rejected_edit_keeps_iff (z : TreeParams) (t : DeltaTree) (e : TreeEdit) (s : Option TreeState)
    (h : t.edit z e = .error (.illegalId, s)) : s = some t.state ↔ e.IllegalArgument := by
  by_cases harg : e.IllegalArgument
  · refine iff_of_true ?_ harg
    cases e with
    | insert rid tupleId =>
      rw [edit, addInsert] at h
      by_cases hrid : 2 ^ 32 - 1 ≤ rid
      · rw [checkId_of_le hrid] at h
        cases h
        rfl
      · rw [checkId_of_lt hrid] at h
        simp only [bind, Except.bind, checkId_of_le (harg.resolve_left hrid)] at h
        cases h
        rfl
    | delete rid =>
      rw [edit, addDelete, checkId_of_le harg] at h
      cases h
      rfl
  · refine iff_of_false ?_ harg
    cases e with
    | insert rid tupleId => exact addInsert_error h harg
    | delete rid => exact addDelete_error h harg

/-- Leaves of four entries, inner nodes of four children -/
def smallParams : TreeParams := ⟨2, 2, 2, 100, 200, by decide⟩

/-- One leaf with one deleted row -/
def firstDeleted : DeltaTree := ⟨.leaf [⟨0, false, 1, 0⟩], 0, 1, 1, 100⟩

theorem rejected_edit_keeps_of_rid :
    some firstDeleted.state = some firstDeleted.state ↔ (TreeEdit.insert (2 ^ 32 - 1) 0).IllegalArgument :=
  rejected_edit_keeps_iff smallParams firstDeleted (.insert (2 ^ 32 - 1) 0) _ rfl

/-- Behind a delete the sid of the largest rid is too large. The insert has been counted before this is found. -/
theorem rejected_insert_is_counted :
    (empty smallParams).edit smallParams (.delete 0) = .ok firstDeleted ∧
      firstDeleted.edit smallParams (.insert (2 ^ 32 - 2) 0)
        = .error (.illegalId, some { firstDeleted.state with numInserts := 1, numEntries := 2 }) ∧
      firstDeleted.numInserts = 0 ∧ firstDeleted.numEntries = 1 :=
  ⟨rfl, rfl, rfl, rfl⟩

end DeltaTree

/-! ## The size of the nodes -/

namespace DTNode

variable {z : TreeParams}

theorem childBytes_append (cs ds : List Child) :
    childBytes z (cs ++ ds) = childBytes z cs + childBytes z ds := by
  induction cs with
  | nil => simp [childBytes]
  | cons c cs ih => simp only [cons_append, childBytes, ih, Nat.add_assoc]

theorem childBytes_setSep (sep : Nat) (cs : List Child) : childBytes z (setSep sep cs) = childBytes z cs := by
  cases cs <;> rfl

theorem childBytes_take_add_drop (k : Nat) (cs : List Child) :
    childBytes z (cs.take k) + childBytes z (cs.drop k) = childBytes z cs := by
  rw [← childBytes_append, take_append_drop]

theorem childBytes_submitMinSid (pos : Nat) (minSid : Option Nat) (cs : List Child) :
    childBytes z (submitMinSid pos minSid cs) = childBytes z cs := by
  unfold submitMinSid
  split
  · rw [childBytes_append, childBytes_setSep, childBytes_take_add_drop]
  · rfl

mutual

theorem bytes_withLeaves : ∀ (node : DTNode) (leaves : List (List DTEntry)),
    (node.withLeaves leaves).1.bytes z = node.bytes z
  | leaf _, _ => rfl
  | intern children, leaves => congrArg (z.internSize + ·) (childBytes_childrenWithLeaves children leaves)

theorem childBytes_childrenWithLeaves : ∀ (children : List Child) (leaves : List (List DTEntry)),
    childBytes z (childrenWithLeaves children leaves).1 = childBytes z children
  | [], _ => rfl
  | (_, _, node) :: children, leaves =>
    congrArg₂ (· + ·) (bytes_withLeaves node leaves) (childBytes_childrenWithLeaves children _)

end

variable {a b : DTNode}

theorem bytes_join {sep : Nat} {j : DTNode} (h : join sep a b = .ok j) :
    j.size z = a.size z ∧ j.bytes z + a.size z = a.bytes z + b.bytes z := by
  cases a <;> cases b <;> cases h
  · exact ⟨rfl, rfl⟩
  · refine ⟨rfl, ?_⟩
    simp only [bytes, size, childBytes_append, childBytes_setSep]
    omega

theorem bytes_splitAt (k : Nat) (n : DTNode) :
    (n.splitAt k).1.bytes z + (n.splitAt k).2.2.bytes z = n.bytes z + n.size z := by
  cases n with
  | leaf es => rfl
  | intern cs =>
    have := childBytes_take_add_drop (z := z) k cs
    simp only [splitAt, bytes, size]
    omega

variable {diff : Int} {cs : List Child}

theorem adoptOrMerge_bytes {fromLeft : Bool} {sepA sepB : Nat}
    (h : adoptOrMerge z fromLeft sepA a sepB b = .ok (cs, diff)) :
    (childBytes z cs : Int) = a.bytes z + b.bytes z + diff := by
  obtain ⟨j, hj, h⟩ := bind_eq_ok_iff.1 h
  obtain ⟨hsize, hbytes⟩ := bytes_join (z := z) hj
  by_cases hmerge : underflow z ((a.count + b.count) / 2) a = true
  · simp only [hmerge, if_true] at h
    obtain ⟨delta, -, h⟩ := bind_eq_ok_iff.1 h
    cases h
    simp only [childBytes]
    omega
  · simp only [hmerge] at h
    generalize (if fromLeft = true then _ else _ : Nat) = cut at h
    have hsplit := bytes_splitAt (z := z) cut j
    rcases hab : j.splitAt cut with ⟨a', sep, b'⟩
    rw [hab] at h hsplit
    obtain ⟨deltaA, -, h⟩ := bind_eq_ok_iff.1 h
    obtain ⟨deltaB, -, h⟩ := bind_eq_ok_iff.1 h
    cases h
    simp only [childBytes]
    simp only at hsplit
    omega

theorem afterChildUpdated_bytes {children : List Child} {pos : Nat} {updated : Bool}
    (h : afterChildUpdated z children pos = .ok (updated, cs, diff)) :
    (childBytes z cs : Int) = childBytes z children + diff := by
  have hparts := childBytes_take_add_drop (z := z) pos children
  unfold afterChildUpdated at h
  split at h
  · cases h
  · rename_i sep oldDelta node behind hdrop
    rw [hdrop] at hparts
    simp only [childBytes] at hparts h
    split_ifs at h
    · have hsplit : (node.split z).1.bytes z + (node.split z).2.2.bytes z = node.bytes z + node.size z := by
        cases node <;> exact bytes_splitAt _ _
      rcases hab : node.split z with ⟨a, sep', b⟩
      rw [hab] at h hsplit
      obtain ⟨deltaA, -, h⟩ := bind_eq_ok_iff.1 h
      obtain ⟨deltaB, -, h⟩ := bind_eq_ok_iff.1 h
      cases h
      simp only at hsplit
      simp only [childBytes_append, childBytes]
      omega
    · split at h
      · obtain ⟨⟨pair, d⟩, hpair, h⟩ := bind_eq_ok_iff.1 h
        cases h
        have := adoptOrMerge_bytes hpair
        simp only [childBytes_append, childBytes] at hparts ⊢
        omega
      · rename_i sep' d' sibling hlast
        obtain ⟨⟨pair, d⟩, hpair, h⟩ := bind_eq_ok_iff.1 h
        cases h
        have hbefore := childBytes_append (z := z) (children.take pos).dropLast [(sep', d', sibling)]
        rw [dropLast_append_getLast? _ hlast] at hbefore
        have := adoptOrMerge_bytes hpair
        simp only [childBytes_append, childBytes] at hparts hbefore ⊢
        omega
      · cases h
    · obtain ⟨delta, -, h⟩ := bind_eq_ok_iff.1 h
      cases h
      simp only [childBytes_append, childBytes]
      omega

mutual

theorem setLeaf_bytes {entries : List DTEntry} {k : Nat} {u : Updated DTNode} :
    ∀ {node : DTNode}, node.setLeaf z entries k = .ok u → (u.result.bytes z : Int) = node.bytes z + u.diff
  | leaf _, h => by
    cases h
    simp [bytes]
  | intern children, h => by
    obtain ⟨⟨pos, v⟩, hv, h⟩ := bind_eq_ok_iff.1 h
    have hchild := setChildLeaf_bytes hv
    have hsep := childBytes_submitMinSid (z := z) pos v.minSid v.result
    by_cases hupdated : v.updated = true
    · simp only [hupdated, if_true] at h
      obtain ⟨⟨updated, cs, diff⟩, hcs, h⟩ := bind_eq_ok_iff.1 h
      cases h
      have := afterChildUpdated_bytes hcs
      simp only [bytes]
      omega
    · simp only [hupdated] at h
      cases h
      simp only [bytes]
      omega

theorem setChildLeaf_bytes {entries : List DTEntry} {k pos : Nat} {u : Updated (List Child)} :
    ∀ {children : List Child}, setChildLeaf z entries k children = .ok (pos, u) →
      (childBytes z u.result : Int) = childBytes z children + u.diff
  | [], h => by cases h
  | (sep, delta, node) :: children, h => by
    rw [setChildLeaf] at h
    split_ifs at h
    · obtain ⟨v, hv, h⟩ := bind_eq_ok_iff.1 h
      cases h
      have := setLeaf_bytes hv
      simp only [childBytes]
      omega
    · obtain ⟨⟨p, v⟩, hv, h⟩ := bind_eq_ok_iff.1 h
      cases h
      have := setChildLeaf_bytes hv
      simp only [childBytes]
      omega

end

theorem afterRootUpdated_bytes {root root' : DTNode}
    (h : root.afterRootUpdated z = .ok (root', diff)) : (root'.bytes z : Int) = root.bytes z + diff := by
  unfold afterRootUpdated at h
  split at h
  · cases h
    simp only [bytes, childBytes]
    omega
  · split_ifs at h
    · obtain ⟨delta, -, h⟩ := bind_eq_ok_iff.1 h
      obtain ⟨⟨updated, cs, d⟩, hcs, h⟩ := bind_eq_ok_iff.1 h
      cases h
      have := afterChildUpdated_bytes hcs
      simp only [bytes, childBytes] at this ⊢
      omega
    · cases h
      omega

end DTNode

/-! ## The size that a tree counts -/

/-- `getBytes` is the size of the nodes. -/
def DeltaTree.Exact (z : TreeParams) (t : DeltaTree) : Prop := t.bytes = t.root.bytes z

namespace DeltaTree

variable {z : TreeParams} {t t' : DeltaTree} {entries : List DTEntry} {k : Nat}

theorem afterLeafUpdated_exact (h : t.afterLeafUpdated z k entries = .ok t') (ht : t.Exact z) : t'.Exact z := by
  unfold afterLeafUpdated at h
  unfold Exact at ht ⊢
  split at h
  · rename_i hroot
    cases h
    rw [ht, hroot]
    rfl
  · obtain ⟨u, hu, h⟩ := bind_eq_ok_iff.1 h
    have hbytes := DTNode.setLeaf_bytes hu
    by_cases hupdated : u.updated = true
    · simp only [hupdated, if_true] at h
      obtain ⟨⟨root, diff⟩, hroot, h⟩ := bind_eq_ok_iff.1 h
      cases h
      have := DTNode.afterRootUpdated_bytes hroot
      simp only
      omega
    · simp only [hupdated] at h
      cases h
      simp only
      omega

theorem update_exact (h : t.update z k entries = .ok t') (ht : t.Exact z) :
    t'.Exact z := by
  unfold update at h
  cases hres : t.afterLeafUpdated z k entries with
  | error e =>
    rw [hres] at h
    cases h
  | ok t₁ =>
    rw [hres] at h
    cases h
    exact afterLeafUpdated_exact hres ht

variable {e : TreeEdit}

theorem edit_exact (h : t.edit z e = .ok t') (ht : t.Exact z) : t'.Exact z := by
  cases e with
  | insert rid tupleId =>
    rw [edit, addInsert] at h
    split at h
    · cases h
    · simp only at h
      split at h
      · cases h
      · exact update_exact h ht
  | delete rid =>
    rw [edit, addDelete] at h
    split at h
    · cases h
    · simp only at h
      split at h
      · exact update_exact h ht
      · exact update_exact h ht
      · split at h
        · cases h
        · exact update_exact h ht

theorem afterEdit_exact (h : t.afterEdit z e = some t') (ht : t.Exact z) : t'.Exact z := by
  unfold afterEdit at h
  split at h
  · rename_i hres
    cases h
    exact edit_exact hres ht
  · obtain ⟨s, -, rfl⟩ := map_eq_some_iff.1 h
    exact ht.trans (congrArg _ (DTNode.bytes_withLeaves t.root s.leaves).symm)

theorem copy_exact (t : DeltaTree) : (t.copy z).Exact z := rfl

end DeltaTree

/-- An assignment or a swap takes trees whose nodes have the same size. -/
def TreeAction.Balanced (z : TreeParams) (trees : List DeltaTree) : TreeAction → Prop
  | copyAssign i j | moveAssign i j | swap i j =>
    ∀ t o, trees[i]? = some t → trees[j]? = some o → t.root.bytes z = o.root.bytes z
  | _ => True

/-- Every tree counts the size of its nodes now and after every action. -/
def AlwaysExact (z : TreeParams) : List TreeAction → List DeltaTree → Prop
  | [], trees => ∀ t ∈ trees, t.Exact z
  | a :: as, trees =>
    (∀ t ∈ trees, t.Exact z) ∧ ∀ trees', treeStep z trees a = some trees' → AlwaysExact z as trees'

/-- Every assignment and swap takes trees whose nodes have the same size. -/
def AlwaysBalanced (z : TreeParams) : List TreeAction → List DeltaTree → Prop
  | [], _ => True
  | a :: as, trees =>
    a.Balanced z trees ∧ ∀ trees', treeStep z trees a = some trees' → AlwaysBalanced z as trees'

section Runs

variable {z : TreeParams} {trees trees' : List DeltaTree} {a : TreeAction}

theorem AlwaysExact.now {as : List TreeAction} (h : AlwaysExact z as trees) : ∀ t ∈ trees, t.Exact z := by
  cases as with
  | nil => exact h
  | cons a as => exact h.1

variable {t : DeltaTree} {i : Nat}

theorem forall_mem_set_exact (h : ∀ t ∈ trees, t.Exact z) (ht : t.Exact z) :
    ∀ t' ∈ trees.set i t, t'.Exact z := by
  intro t' ht'
  rcases mem_or_eq_of_mem_set ht' with hmem | rfl
  · exact h t' hmem
  · exact ht

/-- The tree at `i` gets the nodes of another one and keeps what it has counted. -/
theorem swapped_exact_iff {o : DeltaTree} (ht : t.Exact z) :
    DeltaTree.Exact z { o with bytes := t.bytes } ↔ t.root.bytes z = o.root.bytes z := by
  rw [ht]
  exact Int.ofNat_inj

theorem swapStep_exact_iff {j : Nat} (hex : ∀ t ∈ trees, t.Exact z)
    (h : treeStep z trees (.swap i j) = some trees') :
    (∀ t ∈ trees', t.Exact z) ↔ (TreeAction.swap i j).Balanced z trees := by
  obtain ⟨t, ht, h⟩ := bind_eq_some_iff.1 h
  obtain ⟨o, ho, h⟩ := bind_eq_some_iff.1 h
  cases h
  have hto := swapped_exact_iff (o := o) (hex t (mem_of_getElem? ht))
  have hot := swapped_exact_iff (o := t) (hex o (mem_of_getElem? ho))
  constructor
  · intro hex' t₁ o₁ ht₁ ho₁
    cases ht.symm.trans ht₁
    cases ho.symm.trans ho₁
    refine (hot.1 (hex' _ (mem_set ?_ _))).symm
    rw [length_set]
    exact (List.getElem?_eq_some_iff.1 ho).1
  · intro hbal
    have heq := hbal t o ht ho
    exact forall_mem_set_exact (forall_mem_set_exact hex (hto.2 heq)) (hot.2 heq.symm)

theorem treeStep_exact_iff (hex : ∀ t ∈ trees, t.Exact z) (h : treeStep z trees a = some trees') :
    (∀ t ∈ trees', t.Exact z) ↔ a.Balanced z trees := by
  cases a with
  | create =>
    cases h
    exact iff_of_true (forall_mem_append.2 ⟨hex, forall_mem_singleton.2 rfl⟩) trivial
  | copy i =>
    obtain ⟨t, -, h⟩ := bind_eq_some_iff.1 h
    cases h
    exact iff_of_true (forall_mem_append.2 ⟨hex, forall_mem_singleton.2 t.copy_exact⟩) trivial
  | edit i e =>
    obtain ⟨t, ht, h⟩ := bind_eq_some_iff.1 h
    obtain ⟨t', ht', h⟩ := bind_eq_some_iff.1 h
    cases h
    have ht'ex := afterEdit_exact ht' (hex t (mem_of_getElem? ht))
    exact iff_of_true (forall_mem_set_exact hex ht'ex) trivial
  | copyAssign i j =>
    obtain ⟨t, ht, h⟩ := bind_eq_some_iff.1 h
    obtain ⟨o, ho, h⟩ := bind_eq_some_iff.1 h
    cases h
    have hto := swapped_exact_iff (o := o) (hex t (mem_of_getElem? ht))
    constructor
    · intro hex' t₁ o₁ ht₁ ho₁
      cases ht.symm.trans ht₁
      cases ho.symm.trans ho₁
      exact hto.1 (hex' _ (mem_set (List.getElem?_eq_some_iff.1 ht).1 _))
    · intro hbal
      exact forall_mem_set_exact hex (hto.2 (hbal t o ht ho))
  | moveAssign i j | swap i j => exact swapStep_exact_iff hex h
  | destroy i =>
    cases h
    exact iff_of_true (fun t ht => hex t (mem_of_mem_eraseIdx ht)) trivial

theorem balanced_of_treeStep_eq_none (h : treeStep z trees a = none) : a.Balanced z trees := by
  cases a with
  | create | copy | edit | destroy => trivial
  | copyAssign i j | moveAssign i j | swap i j =>
    intro t o ht ho
    simp [treeStep, ht, ho] at h

theorem alwaysExact_iff_of_exact (as : List TreeAction) (hex : ∀ t ∈ trees, t.Exact z) :
    AlwaysExact z as trees ↔ AlwaysBalanced z as trees := by
  induction as generalizing trees with
  | nil => exact iff_of_true hex trivial
  | cons a as ih =>
    constructor
    · rintro ⟨-, hnext⟩
      refine ⟨?_, fun trees' h => ?_⟩
      · cases h : treeStep z trees a with
        | none => exact balanced_of_treeStep_eq_none h
        | some trees' => exact (treeStep_exact_iff hex h).1 (hnext trees' h).now
      · exact (ih (hnext trees' h).now).1 (hnext trees' h)
    · rintro ⟨hbal, hnext⟩
      refine ⟨hex, fun trees' h => ?_⟩
      exact (ih ((treeStep_exact_iff hex h).2 hbal)).2 (hnext trees' h)

end Runs

/-- In a run from no trees, `getBytes` is always the size of the nodes iff every assignment and swap takes
trees of nodes of the same size. -/
theorem alwaysExact_iff_alwaysBalanced (z : TreeParams) (as : List TreeAction) :
    AlwaysExact z as [] ↔ AlwaysBalanced z as [] :=
  alwaysExact_iff_of_exact as (fun _ h => nomatch h)

/-- Five inserts split the root of the first tree. After a new leaf is assigned to it, it still counts three
nodes. -/
theorem copyAssign_keeps_bytes :
    (([.create, .edit 0 (.insert 0 0), .edit 0 (.insert 0 1), .edit 0 (.insert 0 2), .edit 0 (.insert 0 3),
        .edit 0 (.insert 0 4), .create, .copyAssign 0 1] : List TreeAction).foldlM
      (treeStep smallParams) []).map
        (fun trees => trees.map fun t => (t.bytes, t.root.bytes smallParams))
      = some [(400, 100), (100, 100)] := by
  decide +kernel

end TiFlash.DM
