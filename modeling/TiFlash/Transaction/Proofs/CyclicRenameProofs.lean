import Mathlib.Tactic
import TiFlash.Transaction.CyclicRename

/-!
# Proofs: the renames can be executed and reach the new names

While a chain is resolved, the names on it are visited but not yet done. A done name has its new name
(`nameAt`), and the only visited name that the walk can meet again is the one it started from.
-/

namespace TiFlash.Transaction.CyclicRenameResolver

open TiFlash.Lib Function Finset

variable {Name Obj : Type} [DecidableEq Obj]

/-- The renames are made one by one: each has a source that exists and a target that is free. -/
inductive Executes : List (Name × Name) → (Obj → Name) → (Obj → Name) → Prop
  | nil (name : Obj → Name) : Executes [] name name
  | cons {name name' : Obj → Name} {target : Name} {pairs : List (Name × Name)} (obj : Obj) :
    (∀ other, name other ≠ target) → Executes pairs (update name obj target) name' →
    Executes ((name obj, target) :: pairs) name name'

theorem Executes.append {pairs pairs' : List (Name × Name)} {name name' name'' : Obj → Name}
    (h : Executes pairs name name') (h' : Executes pairs' name' name'') :
    Executes (pairs ++ pairs') name name'' := by
  induction h with
  | nil => exact h'
  | cons obj hfree _ ih => exact .cons obj hfree (ih h')

/-- One object gets a name that is free. -/
theorem Executes.single {name name' : Obj → Name} {obj : Obj} (hfree : ∀ other, name other ≠ name' obj)
    (hother : ∀ other ≠ obj, name' other = name other) : Executes [(name obj, name' obj)] name name' := by
  have hupdate : update name obj (name' obj) = name' := (eq_update_iff.2 ⟨rfl, hother⟩).symm
  exact .cons obj hfree (hupdate.symm ▸ .nil name')

variable [DecidableEq Name] {nameGen : Name → Name} (renameMap : NameMap Name)

/-- The new name -/
def image (name : Name) : Name := (renameMap.lookup name).getD name

/-- What is asked of the map, of the names that exist and of the generator of temporary names. -/
structure Renamable [Inhabited Name] (nameGen : Name → Name) (renameMap : NameMap Name) (name : Obj → Name) :
    Prop where
  unique : Injective name
  injective : ∀ a a' b, renameMap.lookup a = some b → renameMap.lookup a' = some b → a = a'
  nonempty : ∀ a ∈ renameMap, a ≠ default
  no_identity : ∀ a, renameMap.lookup a ≠ some a
  sources : ∀ a ∈ renameMap, ∃ obj, name obj = a
  targets : ∀ a b, renameMap.lookup a = some b → b ∉ renameMap → ∀ obj, name obj ≠ b
  fresh : ∀ a ∈ renameMap, (∀ obj, name obj ≠ nameGen a) ∧ ∀ a', renameMap.lookup a' ≠ some (nameGen a)

/-- The names when those of `done` are changed; `parked` tells where the others are. -/
def nameAt (name : Obj → Name) (done : Finset Name) (parked : Name → Name)
    (obj : Obj) : Name :=
  if name obj ∈ done then image renameMap (name obj) else parked (name obj)

section

variable {M : NameMap Name} {name : Obj → Name} {done : Finset Name} (hdone : ∀ a ∈ done, a ∈ M)
include hdone

omit [DecidableEq Obj] in
theorem nameAt_ne {target : Name} {parked : Name → Name} (htarget : ∀ a ∈ done, M.lookup a ≠ some target)
    (hfree : ∀ obj, name obj ∉ done → parked (name obj) ≠ target) (obj : Obj) :
    nameAt M name done parked obj ≠ target := by
  unfold nameAt
  split_ifs with hobj
  · obtain ⟨b, hb⟩ := HashMap.mem_iff_lookup.1 (hdone _ hobj)
    rw [image, hb, Option.getD_some]
    rintro rfl
    exact htarget _ hobj hb
  · exact hfree obj hobj

variable [Inhabited Name] (h : Renamable nameGen M name)
include h

theorem Renamable.move {a b : Name} {parked : Name → Name} (hab : M.lookup a = some b) (ha : a ∉ done)
    (hfree : ∀ obj, name obj ∉ done → parked (name obj) ≠ b) :
    Executes [(parked a, b)] (nameAt M name done parked) (nameAt M name (insert a done) parked) := by
  obtain ⟨obj, rfl⟩ := h.sources a (HashMap.mem_iff_lookup.2 ⟨b, hab⟩)
  have hsource : nameAt M name done parked obj = parked (name obj) := if_neg ha
  have htarget : nameAt M name (insert (name obj) done) parked obj = b := by
    rw [nameAt, if_pos (mem_insert_self _ _), image, hab]
    rfl
  have hfree := nameAt_ne hdone (fun a' ha' hlookup => ha (h.injective _ _ b hlookup hab ▸ ha')) hfree
  rw [← hsource]
  nth_rewrite 1 [← htarget]
  refine .single (htarget.symm ▸ hfree) fun other hne => ?_
  have hname : name other ≠ name obj := fun heq => hne (h.unique heq)
  simp only [nameAt, mem_insert, hname, false_or]

theorem Renamable.park {r : Name} (hr : r ∈ M) (hnot : r ∉ done) :
    Executes [(r, nameGen r)] (nameAt M name done id) (nameAt M name done (update id r (nameGen r))) := by
  obtain ⟨obj, rfl⟩ := h.sources r hr
  obtain ⟨hfresh, htarget⟩ := h.fresh _ hr
  have hsource : nameAt M name done id obj = name obj := if_neg hnot
  have hname : nameAt M name done (update id (name obj) (nameGen (name obj))) obj = nameGen (name obj) := by
    rw [nameAt, if_neg hnot, update_self]
  have hfree : ∀ other, nameAt M name done id other ≠ nameGen (name obj) :=
    nameAt_ne hdone (fun a _ => htarget a) fun other _ => hfresh other
  nth_rewrite 1 [← hsource]
  nth_rewrite 1 [← hname]
  refine .single (hname.symm ▸ hfree) fun other hne => ?_
  simp only [nameAt, update_of_ne fun heq => hne (h.unique heq)]

end

/-- The walk from `r` has visited `visited`: a name there that is still in the map is `r` itself or the target
of a visited one. -/
structure Walk (M remaining : NameMap Name) (done visited : Finset Name) (r : Name) : Prop where
  done_subset : done ⊆ visited
  visited_mem : ∀ k ∈ visited, k ∈ M
  linked : ∀ d ∈ visited, d ∈ remaining → d = r ∨ ∃ k ∈ visited, M.lookup k = some d

theorem Walk.insert {M remaining : NameMap Name} {done visited : Finset Name} {r a : Name}
    (h : Walk M remaining done visited r) (ha : a ∈ M) (hfrom : a = r ∨ ∃ k ∈ visited, M.lookup k = some a) :
    Walk M remaining done (insert a visited) r where
  done_subset := h.done_subset.trans (subset_insert a visited)
  visited_mem k hk := (mem_insert.1 hk).elim (fun heq => heq ▸ ha) (h.visited_mem k)
  linked d hd hin := by
    have hd : d = r ∨ ∃ k ∈ visited, M.lookup k = some d :=
      (mem_insert.1 hd).elim (fun heq => heq ▸ hfrom) fun hd => h.linked d hd hin
    exact hd.imp_right fun ⟨k, hk, hkd⟩ => ⟨k, mem_insert_of_mem hk, hkd⟩

/-- The names visited behind `visited` get done. -/
def doneAfter (done visited visited' : Finset Name) : Finset Name := done ∪ visited' \ visited

section

variable [Inhabited Name] {M remaining : NameMap Name} {name : Obj → Name} (h : Renamable nameGen M name)
  (hremaining : ∀ k m, remaining.lookup k = some m → M.lookup k = some m) {done : Finset Name}
  (herased : ∀ k ∈ M, k ∉ remaining → k ∈ done) {r : Name} (hr : r ∈ M ∧ r ∉ done) {visited : Finset Name} {a b : Name}
  (hab : M.lookup a = some b) (ha : a ∉ visited)
include h hab ha

theorem Renamable.finish {visited' done' : Finset Name} {parked : Name → Name} {pairs : List (Name × Name)}
    (hsub : done ⊆ visited) (haw : a ∈ visited') (hwalk : Walk M remaining done visited' r)
    (hdone' : doneAfter done (insert a visited) visited' = done')
    (hexec : Executes pairs (nameAt M name done id) (nameAt M name done' parked))
    (hfree : ∀ obj, name obj ∉ done' → parked (name obj) ≠ b) :
    Executes (pairs ++ [(parked a, b)]) (nameAt M name done id)
      (nameAt M name (doneAfter done visited visited') parked) := by
  subst hdone'
  have hdone : ∀ k ∈ doneAfter done (insert a visited) visited', k ∈ M := fun k hk =>
    hwalk.visited_mem k ((mem_union.1 hk).elim (hwalk.done_subset ·) fun hk => (mem_sdiff.1 hk).1)
  have hnot : a ∉ done := fun hk => ha (hsub hk)
  have hnew : insert a (doneAfter done (insert a visited) visited') = doneAfter done visited visited' := by
    ext k
    by_cases hk : k = a <;> simp_all [doneAfter]
  rw [← hnew]
  exact hexec.append (h.move hdone hab (by simp [doneAfter, hnot]) hfree)

include hremaining herased hr

theorem Renamable.resolveImpl (hwalk : Walk M remaining done visited r)
    (hfrom : a = r ∨ ∃ k ∈ visited, M.lookup k = some a) :
    ∃ parked, (parked = id ∧ (resolveImpl nameGen remaining visited a b).1.1 = default ∨
        parked = update id r (nameGen r) ∧ (resolveImpl nameGen remaining visited a b).1 = (r, nameGen r)) ∧
      insert a visited ⊆ (resolveImpl nameGen remaining visited a b).2.1 ∧
      Walk M remaining done (resolveImpl nameGen remaining visited a b).2.1 r ∧
      Executes (resolveImpl nameGen remaining visited a b).2.2 (nameAt M name done id)
        (nameAt M name (doneAfter done visited (resolveImpl nameGen remaining visited a b).2.1) parked) := by
  have hmem : ∀ {k m} {map : NameMap Name}, map.lookup k = some m → k ∈ map := fun hk =>
    HashMap.mem_iff_lookup.2 ⟨_, hk⟩
  have hself : ∀ V : Finset Name, doneAfter done V V = done := fun V => by simp [doneAfter]
  fun_induction CyclicRenameResolver.resolveImpl nameGen remaining visited a b with
  | case1 visited a b hnone =>
    have hwalk' := hwalk.insert (hmem hab) hfrom
    refine ⟨id, .inl ⟨rfl, rfl⟩, subset_rfl, hwalk', ?_⟩
    refine h.finish hab ha hwalk.done_subset (mem_insert_self a visited) hwalk' (hself _) (.nil _) ?_
    intro obj hobj (heq : name obj = b)
    by_cases hb : b ∈ M
    · exact hobj (heq ▸ herased b hb (AList.lookup_eq_none.1 hnone))
    · exact h.targets a b hab hb obj heq
  | case2 visited a b next hnext hin =>
    have hwalk' := hwalk.insert (hmem hab) hfrom
    have hb : b ∈ M := hmem (hremaining b next hnext)
    have hne : a ≠ b := fun heq => h.no_identity a (hab.trans (congrArg some heq.symm))
    obtain rfl : b = r := by
      have hin := (mem_insert.1 hin).resolve_left hne.symm
      refine (hwalk.linked b hin (hmem hnext)).resolve_right fun ⟨k, hk, hkb⟩ => ha ?_
      exact h.injective k a b hkb hab ▸ hk
    refine ⟨_, .inr ⟨rfl, rfl⟩, subset_rfl, hwalk', ?_⟩
    have hpark := h.park (fun k hk => hwalk.visited_mem k (hwalk.done_subset hk)) hb hr.2
    have hfinish := h.finish hab ha hwalk.done_subset (mem_insert_self a visited) hwalk' (hself _) hpark ?_
    · rwa [update_of_ne hne] at hfinish
    · intro obj _
      by_cases hobj : name obj = b
      · rw [hobj, update_self]
        exact fun heq => (h.fresh b hb).1 obj (hobj.trans heq.symm)
      · rwa [update_of_ne hobj]
  | case3 visited a b next hnext hin pair visited' result hrec ih =>
    have hb : M.lookup b = some next := hremaining b next hnext
    obtain ⟨parked, hpair, hsub, hwalk', hexec⟩ := ih hb hin (hwalk.insert (hmem hab) hfrom)
      (.inr ⟨a, mem_insert_self a visited, hab⟩)
    rw [hrec] at hpair hsub hwalk' hexec
    simp only at hpair hsub hwalk' hexec
    have hsub' : insert a visited ⊆ visited' := (subset_insert b _).trans hsub
    have hparked : parked a = if pair.1 = a then pair.2 else a := by
      rcases hpair with ⟨rfl, hdefault⟩ | ⟨rfl, rfl⟩
      · rw [if_neg (fun heq => h.nonempty a (hmem hab) (heq.symm.trans hdefault))]
        rfl
      · simp only [update_apply, eq_comm, id]
    refine ⟨parked, hpair, hsub', hwalk', ?_⟩
    rw [← hparked]
    refine h.finish hab ha hwalk.done_subset (hsub' (mem_insert_self a visited)) hwalk' rfl hexec ?_
    -- `b` is done, so its name is free unless it is the temporary one
    intro obj hobj heq
    have hname : name obj ≠ b := by
      rintro rfl
      exact hobj (mem_union_right _ (mem_sdiff.2 ⟨hsub (mem_insert_self _ _), hin⟩))
    rcases hpair with ⟨rfl, -⟩ | ⟨rfl, -⟩
    · exact hname heq
    · rw [update_apply] at heq
      split_ifs at heq with hobj'
      · exact (h.fresh r hr.1).2 a (heq ▸ hab)
      · exact hname heq

omit hab ha hr hremaining herased in
theorem Renamable.resolveLoop {entries : List (Sigma fun _ : Name => Name)}
    (hremaining : ∀ k m, remaining.lookup k = some m → M.lookup k = some m)
    (herased : ∀ k ∈ M, k ∉ remaining → k ∈ visited) (hvisited : ∀ k ∈ visited, k ∈ M)
    (hlinked : ∀ d ∈ visited, d ∈ remaining → ∃ k ∈ visited, M.lookup k = some d)
    (hentries : ∀ e ∈ entries, M.lookup e.1 = some e.2) (hleft : ∀ k ∈ M, k ∉ visited → k ∈ entries.keys) :
    Executes (resolveLoop nameGen remaining visited entries) (nameAt M name visited id)
      (fun obj => image M (name obj)) := by
  induction entries generalizing remaining visited with
  | nil =>
    have hall : nameAt M name visited id = fun obj => image M (name obj) := by
      funext obj
      unfold nameAt
      split_ifs with hobj
      · rfl
      · have hnone := AList.lookup_eq_none.2 fun hin => List.not_mem_nil (hleft (name obj) hin hobj)
        rw [image, hnone]
        rfl
    rw [hall]
    exact .nil _
  | cons e entries ih =>
    obtain ⟨a, b⟩ := e
    have hab : M.lookup a = some b := hentries ⟨a, b⟩ List.mem_cons_self
    have hrest : ∀ visited', insert a visited ⊆ visited' → (∀ k ∈ visited', k ∈ M) →
        (∀ d ∈ visited', d ∈ remaining → d = a ∨ ∃ k ∈ visited', M.lookup k = some d) →
        Executes (CyclicRenameResolver.resolveLoop nameGen (remaining.erase a) visited' entries)
          (nameAt M name visited' id) (fun obj => image M (name obj)) := by
      intro visited' hsub hvisited' hlinked'
      have ha := hsub (mem_insert_self a visited)
      refine ih ?_ ?_ hvisited' ?_ (fun e he => hentries e (List.mem_cons_of_mem _ he)) ?_
      · intro k m hk
        rw [HashMap.lookup_erase_ite] at hk
        split_ifs at hk
        exact hremaining k m hk
      · intro k hk hnot
        by_cases hka : k = a
        · exact hka ▸ ha
        · have hnot := fun hin => hnot (AList.mem_erase.2 ⟨hka, hin⟩)
          exact hsub (mem_insert_of_mem (herased k hk hnot))
      · intro d hd hin
        obtain ⟨hne, hin⟩ := AList.mem_erase.1 hin
        exact (hlinked' d hd hin).resolve_left hne
      · intro k hk hnot
        have hkeys := hleft k hk fun hin => hnot (hsub (mem_insert_of_mem hin))
        exact (List.mem_cons.1 hkeys).resolve_left fun heq => hnot (heq ▸ ha)
    unfold CyclicRenameResolver.resolveLoop
    split_ifs with ha
    · refine hrest visited ?_ hvisited fun d hd hin => .inr (hlinked d hd hin)
      rw [Finset.insert_eq_of_mem ha]
    · obtain ⟨parked, hpair, hsub, hwalk, hexec⟩ := h.resolveImpl hremaining herased
        ⟨HashMap.mem_iff_lookup.2 ⟨b, hab⟩, ha⟩ hab ha
        ⟨subset_rfl, hvisited, fun d hd hin => .inr (hlinked d hd hin)⟩ (.inl rfl)
      generalize CyclicRenameResolver.resolveImpl nameGen remaining visited a b = out at *
      have hdone : doneAfter visited visited out.2.1 = out.2.1 :=
        union_sdiff_of_subset ((subset_insert a visited).trans hsub)
      -- the temporary name is gone again, since the name that had it is done
      have hparked : nameAt M name out.2.1 parked = nameAt M name out.2.1 id := by
        funext obj
        unfold nameAt
        split_ifs with hobj
        · rfl
        · rcases hpair with ⟨rfl, -⟩ | ⟨rfl, -⟩
          · rfl
          · refine update_of_ne ?_ ..
            rintro rfl
            exact hobj (hsub (mem_insert_self _ _))
      rw [hdone, hparked] at hexec
      exact hexec.append (hrest _ hsub hwalk.visited_mem hwalk.linked)

end

/-- Executing the pairs one by one gives every object the image of its name. -/
theorem resolve_renames [Inhabited Name] {renameMap : NameMap Name} {name : Obj → Name}
    (h : Renamable nameGen renameMap name) :
    Executes (resolve nameGen renameMap) name fun obj => image renameMap (name obj) :=
  h.resolveLoop (fun _ _ hk => hk) (fun _ hk hnot => absurd hk hnot) (by simp) (by simp)
    (fun _ he => AList.mem_lookup_iff.2 he) fun _ hk _ => hk

/-- Two names are exchanged and a third one is replaced by one that is not in the map. -/
def exchange : NameMap (Fin 20) := ((AList.singleton 3 4).insert 2 1).insert 1 2

theorem resolve_exchange : Renamable (· + 10) exchange (Fin.castLE (by decide) : Fin 4 → Fin 20) ∧
    Executes (resolve (· + 10) exchange) (Fin.castLE (by decide) : Fin 4 → Fin 20) fun obj =>
      image exchange (obj.castLE (by decide)) := by
  have h : Renamable (· + 10) exchange (Fin.castLE (by decide) : Fin 4 → Fin 20) := by
    refine ⟨?_, ?_, ?_, ?_, ?_, ?_, ?_⟩ <;> decide
  exact ⟨h, resolve_renames h⟩

end TiFlash.Transaction.CyclicRenameResolver
