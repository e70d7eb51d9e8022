import TiFlash.Page.VersionSet
import TiFlash.Page.Proofs.CompactionProofs
import TiFlash.Page.Proofs.DeltaEditProofs

/-!
# The version lists on the heap

Every held version starts a list that ends at a base. Edits leave the lists of others alone, and `rebase`
exchanges the old part of the lists that run through the place of the new version.
-/

namespace TiFlash.Page

open TiFlash.Lib TiFlash.Lib.BackList PageEntriesView List Option

def NodeOk (node : VersionNode) : Prop :=
  node.prev = none ∧ IsBase node.entries ∨ (∃ p, node.prev = some p) ∧ IsDelta node.entries

abbrev VersionPath (heap : List VersionNode) := Path VersionNode.prev heap

def entriesAt (heap : List VersionNode) (l : List Nat) : PageEntriesView :=
  l.filterMap fun a => (heap[a]?).map VersionNode.entries

namespace VersionSet

variable {s : VersionSet} {heap heap' : List VersionNode} {a : Nat} {l : List Nat} {node : VersionNode}

theorem versions_eq (h : VersionPath s.heap a l) : s.versions a = l := h.walk_eq _ h.length_le

theorem view_eq (h : VersionPath s.heap a l) : s.view a = entriesAt s.heap l := by
  rw [view, versions_eq h, entriesAt]

theorem entriesAt_cons (h : heap[a]? = some node) :
    entriesAt heap (a :: l) = node.entries :: entriesAt heap l := by
  simp [entriesAt, h]

theorem entriesAt_append (l l' : List Nat) :
    entriesAt heap (l ++ l') = entriesAt heap l ++ entriesAt heap l' := filterMap_append

theorem entriesAt_congr
    (h : ∀ a ∈ l, (heap'[a]?).map VersionNode.entries = (heap[a]?).map VersionNode.entries) :
    entriesAt heap' l = entriesAt heap l := filterMap_congr h

theorem wellFormed_of_path
    (hnodes : ∀ (a : Nat) (node : VersionNode), heap[a]? = some node → NodeOk node)
    (h : VersionPath heap a l) : WellFormed (entriesAt heap l) := by
  induction h with
  | @last a node hx hnone =>
    rw [entriesAt_cons hx]
    rcases hnodes a node hx with ⟨-, hbase⟩ | ⟨⟨p, hp⟩, -⟩
    · exact .base hbase
    · exact absurd (hnone.symm.trans hp) (some_ne_none p).symm
  | @link a b node l hx hsome _ ih =>
    rw [entriesAt_cons hx]
    rcases hnodes a node hx with ⟨hp, -⟩ | ⟨-, hdelta⟩
    · exact absurd (hp.symm.trans hsome) (some_ne_none b).symm
    · exact .delta hdelta ih

def held (s : VersionSet) : List Nat := s.snapshots ++ s.releases.flatMap Release.held

end VersionSet

/-- Every version is a base or a delta, and every version that somebody holds starts a list. -/
structure ListsOk (s : VersionSet) : Prop where
  nodes : ∀ (a : Nat) (node : VersionNode), s.heap[a]? = some node → NodeOk node
  current : ∃ l, VersionPath s.heap s.current l
  held : ∀ a ∈ s.held, ∃ l, VersionPath s.heap a l

/-- The list at an address shows the same. The version itself stays, and so does a list of a delta and a base.
-/
structure Keeps (s s' : VersionSet) (a : Nat) : Prop where
  path : ∃ l, VersionPath s'.heap a l
  tables : SameTables (s.view a) (s'.view a)
  node : ∀ node, s.heap[a]? = some node → ∃ node', s'.heap[a]? = some node' ∧ node'.entries = node.entries
  pair : ∀ d b, s.view a = [d, b] → s'.view a = [d, b]

theorem Keeps.of_view_eq {s s' : VersionSet} {a : Nat} (hpath : ∃ l, VersionPath s'.heap a l)
    (hview : s'.view a = s.view a)
    (hnode : ∀ node, s.heap[a]? = some node →
      ∃ node', s'.heap[a]? = some node' ∧ node'.entries = node.entries) :
    Keeps s s' a :=
  ⟨hpath, hview ▸ SameTables.refl _, hnode, fun _ _ hpair => hview.trans hpair⟩

theorem Keeps.trans {s s' s'' : VersionSet} {a : Nat} (h : Keeps s s' a) (h' : Keeps s' s'' a) : Keeps s s'' a := by
  refine ⟨h'.path, h.tables.trans h'.tables, fun node hnode => ?_, fun d b hpair => ?_⟩
  · obtain ⟨node', hnode', hentries⟩ := h.node node hnode
    obtain ⟨node'', hnode'', hentries'⟩ := h'.node node' hnode'
    exact ⟨node'', hnode'', hentries'.trans hentries⟩
  · exact h'.pair d b (h.pair d b hpair)

/-- Nobody else reads the version `current`. -/
def Free (s : VersionSet) : Prop := ∀ a ∈ s.held, ∀ l, VersionPath s.heap a l → s.current ∉ l

namespace VersionSet

variable {s s' : VersionSet} {a q : Nat} {l : List Nat} {node : VersionNode} {v w : PageEntries}
  {prev : PageEntriesView}

theorem view_wellFormed (h : ListsOk s) (hl : VersionPath s.heap a l) : WellFormed (s.view a) := by
  rw [view_eq hl]
  exact wellFormed_of_path h.nodes hl

/-! ### Changing the entries of `current` -/

theorem setEntries_get (s : VersionSet) (c a : Nat) (v : PageEntries) :
    (s.setEntries c v).heap[a]? =
      (s.heap[a]?).map fun node => if c = a then { node with entries := v } else node := by
  rw [setEntries, getElem?_modify]
  cases s.heap[a]? <;> rfl

theorem entriesAt_setEntries {c : Nat} (hc : c ∉ l) (v : PageEntries) :
    entriesAt (s.setEntries c v).heap l = entriesAt s.heap l := by
  refine entriesAt_congr fun b hb => ?_
  have hcb : c ≠ b := fun hcb => hc (hcb ▸ hb)
  rw [setEntries_get]
  cases s.heap[b]? with
  | none => rfl
  | some node => simp [hcb]

section

variable (h : VersionPath s.heap a l)
include h

theorem setEntries_path (c : Nat) (v : PageEntries) :
    VersionPath (s.setEntries c v).heap a l := by
  refine h.congr fun b _ node hnode => ?_
  refine ⟨if c = b then { node with entries := v } else node, ?_, ?_⟩
  · rw [setEntries_get, hnode]
    rfl
  · split_ifs <;> rfl

theorem setEntries_view_of_notMem {c : Nat} (hc : c ∉ l) (v : PageEntries) :
    (s.setEntries c v).view a = s.view a := by
  rw [view_eq (setEntries_path h c v), view_eq h, entriesAt_setEntries hc]

theorem setEntries_view_self (hview : s.view a = w :: prev) (v : PageEntries) :
    (s.setEntries a v).view a = v :: prev := by
  obtain ⟨l', rfl⟩ := h.head
  obtain ⟨node, hnode⟩ := h.get mem_cons_self
  have hnot : a ∉ l' := (nodup_cons.1 h.nodup).1
  have hprev : entriesAt s.heap l' = prev := by
    rw [view_eq h, entriesAt_cons hnode] at hview
    exact (cons.inj hview).2
  have hnode' : (s.setEntries a v).heap[a]? = some { node with entries := v } := by
    rw [setEntries_get, hnode]
    simp
  rw [view_eq (setEntries_path h a v), entriesAt_cons hnode', entriesAt_setEntries hnot, hprev]

end

theorem setEntries_keeps (h : ListsOk s) (hfree : Free s) (v : PageEntries) (ha : a ∈ s.held) :
    Keeps s (s.setEntries s.current v) a := by
  obtain ⟨l, hl⟩ := h.held a ha
  have hnot := hfree a ha l hl
  refine Keeps.of_view_eq ⟨l, setEntries_path hl ..⟩ (setEntries_view_of_notMem hl hnot v) ?_
  intro node hnode
  obtain ⟨l', rfl⟩ := hl.head
  have hne : s.current ≠ a := fun heq => hnot (heq ▸ mem_cons_self)
  refine ⟨node, ?_, rfl⟩
  rw [setEntries_get, hnode]
  simp [hne]

/-- The version that replaces `current` has to be of the same kind. -/
theorem setEntries_listsOk (h : ListsOk s) (hkind : ∀ node, s.heap[s.current]? = some node →
    node.prev = none ∧ IsBase v ∨ (∃ p, node.prev = some p) ∧ IsDelta v) :
    ListsOk (s.setEntries s.current v) := by
  refine ⟨fun a node hnode => ?_, ?_, fun a ha => ?_⟩
  · rw [setEntries_get, map_eq_some_iff] at hnode
    obtain ⟨old, hold, rfl⟩ := hnode
    split_ifs with hc
    · subst hc
      exact hkind old hold
    · exact h.nodes a old hold
  · obtain ⟨l, hl⟩ := h.current
    exact ⟨l, setEntries_path hl ..⟩
  · obtain ⟨l, hl⟩ := h.held a ha
    exact ⟨l, setEntries_path hl ..⟩

/-! ### A new version behind the others -/

theorem entriesAt_append_heap {heap : List VersionNode} (h : VersionPath heap a l) (heap' : List VersionNode) :
    entriesAt (heap ++ heap') l = entriesAt heap l := by
  refine entriesAt_congr fun b hb => ?_
  rw [getElem?_append_left (h.lt hb)]

variable {x : VersionNode}

theorem view_of_heap_append (hheap : s'.heap = s.heap ++ [x])
    (h : VersionPath s.heap a l) : s'.view a = s.view a := by
  have h' : VersionPath s'.heap a l := hheap ▸ h.append [x]
  rw [view_eq h', view_eq h, hheap, entriesAt_append_heap h]

theorem keeps_of_heap_append (hheap : s'.heap = s.heap ++ [x])
    (h : VersionPath s.heap a l) : Keeps s s' a := by
  refine Keeps.of_view_eq ⟨l, hheap ▸ h.append [x]⟩ (view_of_heap_append hheap h) fun node hnode => ?_
  refine ⟨node, ?_, rfl⟩
  rw [hheap, List.getElem?_append_left (List.getElem?_eq_some_iff.1 hnode).1, hnode]

theorem nodeOk_append (h : ListsOk s) {x : VersionNode} (hx : NodeOk x) (a : Nat) (node : VersionNode)
    (hnode : (s.heap ++ [x])[a]? = some node) : NodeOk node := by
  rcases mem_append.1 (mem_of_getElem? hnode) with hold | hnew
  · obtain ⟨b, hb⟩ := mem_iff_getElem?.1 hold
    exact h.nodes b node hb
  · rw [mem_singleton.1 hnew]
    exact hx

theorem appendVersion_spec (h : ListsOk s) (hv : IsDelta v) :
    ListsOk (s.appendVersion v) ∧ Free (s.appendVersion v) ∧
    (s.appendVersion v).view (s.appendVersion v).current = v :: s.view s.current ∧
    ∀ a ∈ s.held, Keeps s (s.appendVersion v) a := by
  obtain ⟨lc, hlc⟩ := h.current
  have hnew : (s.appendVersion v).heap[s.heap.length]? = some { entries := v, prev := some s.current } := by
    simp [appendVersion]
  have hpath : VersionPath (s.appendVersion v).heap s.heap.length (s.heap.length :: lc) :=
    .link hnew rfl (hlc.append _)
  refine ⟨⟨fun a node hnode => ?_, ⟨_, hpath⟩, fun a ha => ?_⟩, fun a ha l hl => ?_, ?_, fun a ha => ?_⟩
  · exact nodeOk_append h (.inr ⟨⟨s.current, rfl⟩, hv⟩) a node hnode
  · obtain ⟨l, hl⟩ := h.held a ha
    exact ⟨l, hl.append _⟩
  · obtain ⟨l', hl'⟩ := h.held a ha
    intro hmem
    rw [hl.unique (hl'.append _)] at hmem
    exact absurd (hl'.lt hmem) (Nat.lt_irrefl _)
  · rw [show (s.appendVersion v).current = s.heap.length from rfl, view_eq hpath, entriesAt_cons hnew,
      view_eq hlc]
    congr 1
    exact entriesAt_append_heap hlc _
  · obtain ⟨l, hl⟩ := h.held a ha
    exact keeps_of_heap_append rfl hl

/-! ### A version in the place of a list -/

/-- The version that `rebase` puts in: a base, or a delta on a base of the heap. -/
def Rebased (s : VersionSet) (x : VersionNode) (tables : PageEntriesView) : Prop :=
  x.prev = none ∧ IsBase x.entries ∧ SameTables tables [x.entries] ∨
  ∃ b base, x.prev = some b ∧ s.heap[b]? = some base ∧ base.prev = none ∧ IsDelta x.entries ∧
    SameTables tables [x.entries, base.entries]

theorem Rebased.nodeOk {tables : PageEntriesView} (h : Rebased s x tables) : NodeOk x := by
  rcases h with ⟨hprev, hbase, -⟩ | ⟨b, -, hprev, -, -, hdelta, -⟩
  · exact .inl ⟨hprev, hbase⟩
  · exact .inr ⟨⟨b, hprev⟩, hdelta⟩

/-- The list of the new version on a heap that has it at the end. It uses no other version with a link. -/
theorem Rebased.path {tables : PageEntriesView} (h : Rebased s x tables)
    {heap : List VersionNode} (hnew : heap[s.heap.length]? = some x)
    (hkeep : ∀ (c : Nat) (node : VersionNode), s.heap[c]? = some node → node.prev = none →
      heap[c]? = some node) :
    ∃ l, VersionPath heap s.heap.length l ∧ SameTables tables (entriesAt heap l) := by
  rcases h with ⟨hprev, -, htables⟩ | ⟨b, base, hprev, hb, hnone, -, htables⟩
  · refine ⟨_, .last hnew hprev, ?_⟩
    rw [entriesAt_cons hnew]
    exact htables
  · have hb' := hkeep b base hb hnone
    refine ⟨_, .link hnew hprev (.last hb' hnone), ?_⟩
    rw [entriesAt_cons hnew, entriesAt_cons hb']
    exact htables

theorem relinked_get (s : VersionSet) (q a : Nat) :
    ((s.heap ++ [x]).modify q fun node => { node with prev := some s.heap.length })[a]? =
      ((s.heap ++ [x])[a]?).map fun node => if q = a then { node with prev := some s.heap.length } else node := by
  rw [getElem?_modify]
  cases (s.heap ++ [x])[a]? <;> rfl

section Relink

variable {x tailNode qNode : VersionNode} {tail : Nat}

theorem relinked_old (hheap : s'.heap = (s.heap ++ [x]).modify q fun node =>
    { node with prev := some s.heap.length }) (hnode : s.heap[a]? = some node) :
    s'.heap[a]? = some (if q = a then { node with prev := some s.heap.length } else node) := by
  rw [hheap, relinked_get, List.getElem?_append_left (List.getElem?_eq_some_iff.1 hnode).1, hnode]
  rfl

theorem length_entriesAt (h : VersionPath s.heap a l) : (entriesAt s.heap l).length = l.length := by
  induction h with
  | last hx => simp [entriesAt, hx]
  | link hx _ _ ih => simp [entriesAt_cons hx, ih]

/-- Linking `q` to the new version instead of to `tail` keeps what every list shows. -/
theorem relink_keeps (hok : ListsOk s) (hr : Rebased s x (s.view tail))
    (htail : s.heap[tail]? = some tailNode) (hdelta : IsDelta tailNode.entries)
    (hq : s.heap[q]? = some qNode) (hlink : qNode.prev = some tail)
    (hheap : s'.heap = (s.heap ++ [x]).modify q fun node => { node with prev := some s.heap.length })
    (hl : VersionPath s.heap a l) : Keeps s s' a := by
  have hqlt : q < s.heap.length := (List.getElem?_eq_some_iff.1 hq).1
  have hnew : s'.heap[s.heap.length]? = some x := by
    rw [hheap, relinked_get, getElem?_append_right (Nat.le_refl _)]
    simp [Nat.ne_of_lt hqlt]
  have hsame : ∀ (c : Nat) (node : VersionNode), s.heap[c]? = some node → node.prev = none →
      s'.heap[c]? = some node := by
    intro c node hc hnone
    rw [relinked_old hheap hc, if_neg]
    rintro rfl
    cases hc.symm.trans hq
    exact absurd (hnone.symm.trans hlink) (some_ne_none tail).symm
  obtain ⟨lN, hpathN, htables⟩ := hr.path hnew hsame
  have hentries : ∀ l' : List Nat, (∀ b ∈ l', ∃ node, s.heap[b]? = some node) →
      entriesAt s'.heap l' = entriesAt s.heap l' := by
    intro l' hl'
    refine entriesAt_congr fun b hb => ?_
    obtain ⟨node, hnode⟩ := hl' b hb
    rw [relinked_old hheap hnode, hnode]
    split_ifs <;> rfl
  have hnode : ∀ node, s.heap[a]? = some node →
      ∃ node', s'.heap[a]? = some node' ∧ node'.entries = node.entries := by
    intro node hnode
    refine ⟨_, relinked_old hheap hnode, ?_⟩
    split_ifs <;> rfl
  by_cases hmem : q ∈ l
  · -- the list runs through `q`
    have hqnew : s'.heap[q]? = some { qNode with prev := some s.heap.length } := by
      rw [relinked_old hheap hq, if_pos rfl]
    obtain ⟨l₁, l₂, rfl, hqpath, hpath'⟩ := hl.relink hmem (fun b y hb hy =>
      ⟨y, (relinked_old hheap hy).trans (by rw [if_neg (Ne.symm hb)]), rfl⟩) hqnew rfl hpathN
    have htailpath : VersionPath s.heap tail l₂ := hqpath.tail hq hlink
    have hview : s.view a = entriesAt s.heap (l₁ ++ [q]) ++ s.view tail := by
      rw [view_eq hl, view_eq htailpath, ← entriesAt_append, append_assoc, singleton_append]
    have hview' : s'.view a = entriesAt s.heap (l₁ ++ [q]) ++ entriesAt s'.heap lN := by
      rw [view_eq hpath', ← hentries, ← entriesAt_append, append_assoc, singleton_append]
      exact forall_mem_append.2 ⟨fun b hb => hl.get (mem_append_left _ hb),
        forall_mem_singleton.2 (hl.get hmem)⟩
    refine ⟨⟨_, hpath'⟩, ?_, hnode, fun d b hpair => ?_⟩
    · rw [hview, hview']
      exact htables.append _
    · -- a list of two has no delta behind its first version
      exfalso
      have hlen := length_entriesAt hl
      rw [← view_eq hl, hpair] at hlen
      have htaillen : 2 ≤ l₂.length := by
        rcases hok.nodes tail tailNode htail with ⟨-, hbase⟩ | ⟨⟨p, hp⟩, -⟩
        · exact absurd (hbase.base.symm.trans hdelta.delta) Bool.true_eq_false.mp
        · obtain ⟨l₃, rfl⟩ := htailpath.head
          obtain ⟨l₄, rfl⟩ := (htailpath.tail htail hp).head
          simp
      simp only [length_cons, length_nil, length_append] at hlen
      omega
  · have hpath' : VersionPath s'.heap a l := by
      refine hl.congr fun b hb y hy => ⟨y, ?_, rfl⟩
      have hqb : q ≠ b := fun hqb => hmem (hqb ▸ hb)
      rw [relinked_old hheap hy, if_neg hqb]
    refine Keeps.of_view_eq ⟨l, hpath'⟩ ?_ hnode
    rw [view_eq hpath', view_eq hl]
    exact hentries l fun b hb => hl.get hb

/-- What `rebase` does when it finds `tail` in the current list. -/
structure RebaseSpec (s s' : VersionSet) (x : VersionNode) : Prop where
  frame : s'.config = s.config ∧ s'.snapshots = s.snapshots ∧ s'.releases = s.releases
  lists : ListsOk s'
  keeps : ∀ a ∈ s.held, Keeps s s' a
  current : SameTables (s.view s.current) (s'.view s'.current)
  new : s'.heap[s.heap.length]? = some x
  unlinked : ∀ (c : Nat) (node : VersionNode), s.heap[c]? = some node → node.prev = none →
    s'.heap[c]? = some node

theorem rebase_spec (hok : ListsOk s) (hr : Rebased s x (s.view tail))
    (htail : s.heap[tail]? = some tailNode) (hdelta : IsDelta tailNode.entries)
    (hs : s.rebase tail x = some s') : RebaseSpec s s' x := by
  obtain ⟨lc, hlc⟩ := hok.current
  unfold rebase at hs
  split_ifs at hs with hvalid hcur
  · -- the new version becomes `current`
    obtain rfl := Option.some.inj hs
    have hnew : (s.heap ++ [x])[s.heap.length]? = some x := by simp
    have hsame : ∀ (c : Nat) (node : VersionNode), s.heap[c]? = some node → node.prev = none →
        (s.heap ++ [x])[c]? = some node := by
      intro c node hc _
      rw [List.getElem?_append_left (List.getElem?_eq_some_iff.1 hc).1, hc]
    obtain ⟨lN, hpathN, htables⟩ := hr.path hnew hsame
    refine ⟨⟨rfl, rfl, rfl⟩, ⟨nodeOk_append hok hr.nodeOk, ⟨lN, hpathN⟩, fun a ha => ?_⟩, fun a ha => ?_,
      ?_, hnew, hsame⟩
    · obtain ⟨l, hl⟩ := hok.held a ha
      exact ⟨l, hl.append _⟩
    · obtain ⟨l, hl⟩ := hok.held a ha
      exact keeps_of_heap_append rfl hl
    · rw [← hcur]
      rw [view_eq (s := { s with heap := s.heap ++ [x], current := s.heap.length }) hpathN]
      exact htables
  · -- the version behind `tail` is linked to the new one
    have hmem : tail ∈ lc := by
      rw [isValidVersion, versions_eq hlc] at hvalid
      exact of_decide_eq_true hvalid
    obtain ⟨q₀, hq₀, node₀, hnode₀, hlink₀⟩ := hlc.exists_link hmem hcur
    rw [versions_eq hlc] at hs
    cases hfind : lc.find? (fun address => (s.heap[address]?).bind VersionNode.prev == some tail) with
    | none =>
      have := find?_eq_none.1 hfind q₀ hq₀
      simp [hnode₀, hlink₀] at this
    | some q =>
      rw [hfind] at hs
      obtain rfl := Option.some.inj hs
      have hqmem := mem_of_find?_eq_some hfind
      obtain ⟨qNode, hq⟩ := hlc.get hqmem
      have hlink : qNode.prev = some tail := by
        have := find?_some hfind
        simpa [hq] using this
      have hkeeps : ∀ a l, VersionPath s.heap a l → Keeps s { s with
          heap := (s.heap ++ [x]).modify q fun node => { node with prev := some s.heap.length } } a :=
        fun a l hl => relink_keeps hok hr htail hdelta hq hlink rfl hl
      have hqlt : q < s.heap.length := (List.getElem?_eq_some_iff.1 hq).1
      refine ⟨⟨rfl, rfl, rfl⟩, ⟨?_, (hkeeps _ _ hlc).path, ?_⟩, ?_, (hkeeps _ _ hlc).tables, ?_, ?_⟩
      · intro a node hnode
        rw [relinked_get, map_eq_some_iff] at hnode
        obtain ⟨old, hold, rfl⟩ := hnode
        have holdOk := nodeOk_append hok hr.nodeOk a old hold
        split_ifs with hqa
        · subst hqa
          rw [getElem?_append_left hqlt, hq] at hold
          obtain rfl := Option.some.inj hold
          rcases holdOk with ⟨hnone, -⟩ | ⟨-, hd⟩
          · exact absurd (hnone.symm.trans hlink) (some_ne_none tail).symm
          · exact .inr ⟨⟨_, rfl⟩, hd⟩
        · exact holdOk
      · intro a ha
        obtain ⟨l, hl⟩ := hok.held a ha
        exact (hkeeps a l hl).path
      · intro a ha
        obtain ⟨l, hl⟩ := hok.held a ha
        exact hkeeps a l hl
      · simp [Nat.ne_of_lt hqlt]
      · intro c node hc hnone
        rw [relinked_get, List.getElem?_append_left (List.getElem?_eq_some_iff.1 hc).1, hc, map_some, if_neg]
        rintro rfl
        cases hc.symm.trans hq
        exact absurd (hnone.symm.trans hlink) (some_ne_none tail).symm

end Relink

end VersionSet

end TiFlash.Page
