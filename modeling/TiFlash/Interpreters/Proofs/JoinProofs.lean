import TiFlash.Interpreters.JoinSpec

/-!
# Joins return the result of SQL

With an other condition the block is cut into one group of candidates per left row, so the result is
described for one left row and put together.
-/

namespace TiFlash.Interpreters

open TiFlash.Lib List Bool

/-! ## What the filters keep -/

section

variable {α β : Type*}

/-! ## Keeping the values with a nonzero byte -/

@[simp] theorem keep_nil (xs : List α) : keep [] xs = [] := rfl

@[simp] theorem keep_cons (b : UInt8) (filt : List UInt8) (x : α) (xs : List α) :
    keep (b :: filt) (x :: xs) = if b = 0 then keep filt xs else x :: keep filt xs := by
  by_cases h : b = 0 <;> simp [keep, h]

theorem keep_append {f₁ f₂ : List UInt8} {x₁ x₂ : List α} (h : f₁.length = x₁.length) :
    keep (f₁ ++ f₂) (x₁ ++ x₂) = keep f₁ x₁ ++ keep f₂ x₂ := by
  unfold keep
  rw [zipWith_append h, filterMap_append]

theorem keep_flatMap (f : β → List UInt8) (g : β → List α) (bs : List β)
    (h : ∀ b ∈ bs, (f b).length = (g b).length) :
    keep (bs.flatMap f) (bs.flatMap g) = bs.flatMap fun b => keep (f b) (g b) := by
  unfold keep
  rw [zipWith_flatMap _ f g bs h, filterMap_flatMap]

theorem keep_map (f : β → UInt8) (g : β → α) (bs : List β) :
    keep (bs.map f) (bs.map g) = (bs.filter fun b => f b != 0).map g := by
  induction bs with
  | nil => rfl
  | cons b bs ih =>
    rw [map_cons, map_cons, keep_cons, filter_cons, ih]
    by_cases h : f b = 0 <;> simp [h]

variable {filt : List UInt8}

theorem keep_eq_nil (h : ∀ b ∈ filt, b = 0) (xs : List α) : keep filt xs = [] := by
  induction filt generalizing xs with
  | nil => rfl
  | cons b filt ih =>
    cases xs with
    | nil => rfl
    | cons x xs =>
      rw [keep_cons, if_pos (h b (by simp))]
      exact ih (fun c hc => h c (mem_cons_of_mem _ hc)) xs

theorem keep_eq_self (h : ∀ b ∈ filt, b ≠ 0) {xs : List α}
    (hlen : filt.length = xs.length) : keep filt xs = xs := by
  induction filt generalizing xs with
  | nil => rw [length_eq_zero_iff.mp hlen.symm, keep_nil]
  | cons b filt ih =>
    cases xs with
    | nil => cases hlen
    | cons x xs =>
      rw [keep_cons, if_neg (h b (by simp)), ih (fun c hc => h c (mem_cons_of_mem _ hc))]
      exact Nat.succ.inj hlen

/-! ## Sixteen bytes at once -/

variable {b : UInt8}

theorem cmpgtZero_iff (h : b < 128) : cmpgtZero b = true ↔ b ≠ 0 := by
  simp [cmpgtZero, h]

theorem ne_zero_of_cmpgtZero (h : cmpgtZero b = true) : b ≠ 0 := by
  rintro rfl
  cases h

theorem keep_ne_nil (hb : b ∈ filt) (hne : b ≠ 0) {xs : List α} (hlen : filt.length = xs.length) :
    keep filt xs ≠ [] := by
  induction filt generalizing xs with
  | nil => cases hb
  | cons c filt ih =>
    cases xs with
    | nil => cases hlen
    | cons x xs =>
      rw [keep_cons]
      split_ifs with hc
      · exact ih ((mem_cons.mp hb).resolve_left fun heq => hne (heq.trans hc)) (Nat.succ.inj hlen)
      · exact cons_ne_nil _ _

/-- A chunk is filtered, or dropped as a whole. -/
theorem filterChunk_cases {xs : List α} (hlen : filt.length = xs.length) :
    filterChunk filt xs = if (filt.all (· == 0) || filt.any cmpgtZero) = true then keep filt xs else [] := by
  unfold filterChunk
  by_cases hany : filt.any cmpgtZero = true
  · obtain ⟨b, hb, hpos⟩ := any_eq_true.mp hany
    have hnone : ¬ filt.all (!cmpgtZero ·) = true := fun hnone => by
      have := all_eq_true.mp hnone b hb
      rw [hpos] at this
      cases this
    rw [if_neg hnone, hany, Bool.or_true, if_pos rfl]
    split_ifs with hall
    · exact (keep_eq_self (fun b hb => ne_zero_of_cmpgtZero (all_eq_true.mp hall b hb)) hlen).symm
    · rfl
  · have hnone : filt.all (!cmpgtZero ·) = true := by
      simpa [all_eq_true, any_eq_true] using hany
    rw [if_pos hnone]
    split_ifs with hzero
    · refine (keep_eq_nil (fun b hb => ?_) xs).symm
      rw [eq_false_iff.mpr hany, Bool.or_false] at hzero
      exact beq_iff_eq.mp (all_eq_true.mp hzero b hb)
    · rfl

theorem filterChunks_eq_keep (n : Nat) {filt : List UInt8} (h : Join.keptChunks n filt = true) {xs : List α}
    (hlen : filt.length = xs.length) : filterChunks n filt xs = keep filt xs := by
  induction n generalizing filt xs with
  | zero => rfl
  | succ n ih =>
    obtain ⟨hfirst, hrest⟩ := and_eq_true_iff.mp h
    have htake : (filt.take 16).length = (xs.take 16).length := by simp [hlen]
    rw [filterChunks, filterChunk_cases htake, if_pos hfirst, ih hrest (by simp [hlen]), ← keep_append htake,
      take_append_drop, take_append_drop]

theorem filterChunks_length_le (n : Nat) {filt : List UInt8} {xs : List α} (hlen : filt.length = xs.length) :
    (filterChunks n filt xs).length ≤ (keep filt xs).length ∧
      (Join.keptChunks n filt = false → (filterChunks n filt xs).length < (keep filt xs).length) := by
  induction n generalizing filt xs with
  | zero => exact ⟨le_rfl, nofun⟩
  | succ n ih =>
    have htake : (filt.take 16).length = (xs.take 16).length := by simp [hlen]
    obtain ⟨hle, hlt⟩ := @ih (filt.drop 16) (xs.drop 16) (by simp [hlen])
    have hkeep : (keep filt xs).length
        = (keep (filt.take 16) (xs.take 16)).length + (keep (filt.drop 16) (xs.drop 16)).length := by
      rw [← length_append, ← keep_append htake, take_append_drop, take_append_drop]
    rw [filterChunks, filterChunk_cases htake, Join.keptChunks, length_append, hkeep]
    by_cases hfirst : ((filt.take 16).all (· == 0) || (filt.take 16).any cmpgtZero) = true
    · rw [if_pos hfirst, hfirst, Bool.true_and]
      exact ⟨by omega, fun h => by have := hlt h; omega⟩
    · -- a chunk with a true byte is dropped
      have hbyte : ∃ b ∈ filt.take 16, b ≠ 0 := by
        by_contra hzero
        push Not at hzero
        refine hfirst (Bool.or_eq_true_iff.mpr (.inl (all_eq_true.mpr fun b hb => ?_)))
        exact beq_iff_eq.mpr (hzero b hb)
      obtain ⟨b, hb, hne⟩ := hbyte
      have hpos := length_pos_of_ne_nil (keep_ne_nil hb hne htake)
      rw [if_neg hfirst, length_nil]
      exact ⟨by omega, fun _ => by omega⟩

theorem filterColumn_eq_keep (h : Join.keptChunks (filt.length / 16) filt = true) {xs : List α}
    (hlen : filt.length = xs.length) : filterColumn filt xs = keep filt xs :=
  filterChunks_eq_keep _ h hlen

theorem filterColumn_length_lt (h : Join.keptChunks (filt.length / 16) filt = false) {xs : List α}
    (hlen : filt.length = xs.length) : (filterColumn filt xs).length < (keep filt xs).length :=
  (filterChunks_length_le _ hlen).2 h

theorem keptChunks_of_lt (n : Nat) {filt : List UInt8} (h : ∀ b ∈ filt, b < 128) :
    Join.keptChunks n filt = true := by
  induction n generalizing filt with
  | zero => rfl
  | succ n ih =>
    rw [Join.keptChunks, ih fun b hb => h b (mem_of_mem_drop hb), Bool.and_true]
    by_cases hany : (filt.take 16).any cmpgtZero = true
    · rw [hany, Bool.or_true]
    · refine Bool.or_eq_true_iff.mpr (.inl (all_eq_true.mpr fun b hb => beq_iff_eq.mpr ?_))
      by_contra hne
      exact hany (any_eq_true.mpr ⟨b, hb, (cmpgtZero_iff (h b (mem_of_mem_take hb))).mpr hne⟩)

/-! ## The row filter of a group -/

theorem keepFirst_length (kept : Bool) (bs : List UInt8) : (keepFirst kept bs).length = bs.length := by
  induction bs generalizing kept with
  | nil => rfl
  | cons b bs ih => simp [keepFirst, ih]

variable (bs : List UInt8)

theorem keepFirst_true : ∀ b ∈ keepFirst true bs, b = 0 := by
  induction bs with
  | nil => simp [keepFirst]
  | cons b bs ih => simpa [keepFirst] using ih

theorem keepFirst_lt (kept : Bool) (bs : List UInt8) : ∀ b ∈ keepFirst kept bs, b < 128 := by
  induction bs generalizing kept with
  | nil => simp [keepFirst]
  | cons b bs ih =>
    intro c hc
    rcases mem_cons.mp hc with rfl | hc
    · split_ifs <;> decide
    · exact ih _ c hc

theorem keepFirst_any : (keepFirst false bs).any (· != 0) = bs.any (· != 0) := by
  induction bs with
  | nil => rfl
  | cons b bs ih =>
    by_cases h : b = 0
    · simpa [keepFirst, h] using ih
    · simp [keepFirst, h]

theorem keep_keepFirst (f : β → UInt8) (g : β → α) (bs : List β) :
    keep (keepFirst false (bs.map f)) (bs.map g) = ((bs.filter fun b => f b != 0).take 1).map g := by
  induction bs with
  | nil => rfl
  | cons b bs ih =>
    by_cases h : f b = 0
    · simpa [keepFirst, h] using ih
    · have hb : (f b != 0) = true := by simpa using h
      have hrest : keep (keepFirst true (bs.map f)) (bs.map g) = [] := keep_eq_nil (keepFirst_true _) _
      simp [keepFirst, hb, hrest]

theorem setStart_length : (setStart bs).length = bs.length := by
  cases bs <;> rfl

theorem setStart_lt {bs : List UInt8} (h : ∀ b ∈ bs, b < 128) : ∀ b ∈ setStart bs, b < 128 := by
  cases bs with
  | nil => exact h
  | cons b bs =>
    intro c hc
    rcases mem_cons.mp hc with rfl | hc
    · decide
    · exact h c (mem_cons_of_mem _ hc)

theorem keep_setStart {bs : List UInt8} (h : ∀ b ∈ bs, b = 0) {xs : List α}
    (hlen : bs.length = xs.length) : keep (setStart bs) xs = xs.take 1 := by
  cases bs with
  | nil => rw [length_eq_zero_iff.mp hlen.symm]; rfl
  | cons b bs =>
    cases xs with
    | nil => cases hlen
    | cons x xs => simp [setStart, keep_eq_nil fun c hc => h c (mem_cons_of_mem _ hc)]

end

/-! ## The build side and the probe -/

section

variable {w : Nat} {K V L : Type*}

/-! ## Keys and null maps -/

variable {keys : List (Option K)}

theorem nullMap_eq_false {filterColumn : Bool} {filter : Option UInt8} :
    nullMap filterColumn keys filter = false ↔ (∀ k ∈ keys, k.isSome) ∧ (filterColumn → isTrue filter) := by
  unfold nullMap
  rw [or_eq_false_iff, any_eq_false]
  refine and_congr ?_ ?_
  · exact forall₂_congr fun k _ => by cases k <;> simp
  · cases filterColumn <;> cases isTrue filter <;> simp

theorem map_some_nestedKeys (h : ∀ k ∈ keys, k.isSome) :
    (nestedKeys keys).map some = keys := by
  induction keys with
  | nil => rfl
  | cons k keys ih =>
    obtain ⟨v, rfl⟩ := Option.isSome_iff_exists.mp (h k (by simp))
    have hrest := ih fun k hk => h k (mem_cons_of_mem _ hk)
    simpa [nestedKeys] using hrest

theorem nestedKeys_inj {keys' : List (Option K)} (h : ∀ k ∈ keys, k.isSome)
    (h' : ∀ k ∈ keys', k.isSome) : nestedKeys keys = nestedKeys keys' ↔ keys = keys' := by
  refine ⟨fun heq => ?_, fun heq => by rw [heq]⟩
  rw [← map_some_nestedKeys h, ← map_some_nestedKeys h', heq]

/-! ## The build side -/

/-- What the table holds under the key of these rows. -/
def Holds (strictness : Strictness) (rows : List (Cells w V)) : Option (RowRefList w V) → Prop
  | none => rows = []
  | some it => it.row ∈ rows ∧ (strictness = .all → it.toList.Perm rows)

variable {rows : List (Cells w V)} {o : Option (RowRefList w V)} {s : Strictness}

theorem Holds.isSome_iff (h : Holds s rows o) : o.isSome ↔ rows ≠ [] := by
  cases o with
  | none => simp [show rows = [] from h]
  | some it => simp [ne_nil_of_mem h.1]

theorem Holds.insert (h : Holds s rows o) (row : Cells w V) :
    Holds s (rows ++ [row]) (some (Interpreters.insert s row o)) := by
  cases o with
  | none =>
    have hrows : rows = [] := h
    subst hrows
    exact ⟨by simp [Interpreters.insert], fun _ => List.Perm.refl _⟩
  | some it =>
    obtain ⟨hmem, hperm⟩ := h
    cases s with
    | any => exact ⟨mem_append_left _ hmem, fun hs => by cases hs⟩
    | all =>
      refine ⟨mem_append_left _ hmem, fun _ => ?_⟩
      have hswap : (it.row :: row :: it.next).Perm (row :: it.toList) := List.Perm.swap _ _ _
      exact hswap.trans (((hperm rfl).cons row).trans (perm_append_singleton row rows).symm)

section Build

variable [DecidableEq K]

def storedRows (j : Join w V L) (rights : List (RightRow w K V)) (key : List K) : List (Cells w V) :=
  (rights.filter fun r => !nullMap j.rightFilterColumn r.keys r.filter && nestedKeys r.keys = key).map
    (·.columns)

variable (j : Join w V L) (rights : List (RightRow w K V))

theorem storedRows_append (r : RightRow w K V) (key : List K) :
    storedRows j (rights ++ [r]) key = storedRows j rights key ++ storedRows j [r] key := by
  simp [storedRows]

theorem buildMap_holds (key : List K) :
    Holds j.strictness (storedRows j rights key) (buildMap j rights key) := by
  induction rights using List.reverseRecOn with
  | nil => rfl
  | append_singleton rights r ih =>
    have hbuild : buildMap j (rights ++ [r]) = insertRow j (buildMap j rights) r := by
      simp [buildMap]
    rw [hbuild, storedRows_append]
    unfold insertRow
    by_cases hnull : nullMap j.rightFilterColumn r.keys r.filter = true
    · rw [if_pos hnull]
      have hnone : storedRows j [r] key = [] := by simp [storedRows, hnull]
      rw [hnone, append_nil]
      exact ih
    · rw [if_neg hnull]
      by_cases hkey : nestedKeys r.keys = key
      · have hone : storedRows j [r] key = [r.columns] := by simp [storedRows, hnull, hkey]
        rw [hone, hkey, Function.update_self]
        exact ih.insert r.columns
      · have hnone : storedRows j [r] key = [] := by simp [storedRows, hkey]
        rw [hnone, append_nil, Function.update_of_ne (Ne.symm hkey)]
        exact ih

/-- The right rows that agree with a left row before the other condition. -/
def candidates (j : Join w V L) (rights : List (RightRow w K V)) (l : LeftRow K L) :
    List (Cells w V) :=
  (rights.filter fun r => j.Candidate l r).map (·.columns)

theorem find_holds (l : LeftRow K L) :
    Holds j.strictness (candidates j rights l) (find j (buildMap j rights) l) := by
  unfold find
  by_cases hnull : nullMap j.leftFilterColumn l.keys l.filter = true
  · rw [if_pos hnull]
    have hno : ∀ r : RightRow w K V, ¬ j.Candidate l r := by
      rintro r ⟨hkeys, -, -, hfilter, -⟩
      rw [nullMap_eq_false.mpr ⟨hkeys, hfilter⟩] at hnull
      cases hnull
    simp [Holds, candidates, hno]
  · rw [if_neg hnull]
    obtain ⟨hkeys, hfilter⟩ := nullMap_eq_false.mp (eq_false_iff.mpr hnull)
    have hstored : candidates j rights l = storedRows j rights (nestedKeys l.keys) := by
      unfold candidates storedRows
      congr 1
      refine filter_congr fun r _ => ?_
      rw [Bool.eq_iff_iff, decide_eq_true_iff, Bool.and_eq_true, Bool.not_eq_true', nullMap_eq_false,
        decide_eq_true_iff]
      constructor
      · rintro ⟨-, hr, heq, -, hrf⟩
        exact ⟨⟨hr, hrf⟩, by rw [heq]⟩
      · rintro ⟨⟨hr, hrf⟩, heq⟩
        exact ⟨hkeys, hr, ((nestedKeys_inj hr hkeys).mp heq).symm, hfilter, hrf⟩
    rw [hstored]
    exact buildMap_holds j rights _

theorem matchRows_eq (l : LeftRow K L) :
    j.matchRows rights l = (candidates j rights l).filter (j.conditionTrue l.row) := by
  unfold Join.matchRows candidates
  rw [filter_map, filter_filter]
  congr 1
  refine filter_congr fun r _ => ?_
  rw [Bool.eq_iff_iff, decide_eq_true_iff, Bool.and_eq_true, decide_eq_true_iff]
  exact and_comm

end Build

/-! ## The probe -/

def addedOf (j : Join w V L) (o : Option (RowRefList w V)) : List (Cells w V) :=
  match j.strictness, j.kind, o with
  | .any, .anti, some _ => []
  | .any, _, some it => [it.row]
  | .all, _, some it => it.toList
  | _, .inner, none => []
  | _, _, none => [j.placeholder]

def flagOf (j : Join w V L) (o : Option (RowRefList w V)) : List UInt8 :=
  match j.strictness, j.kind with
  | _, .left => []
  | .any, .inner => [if o.isSome then 1 else 0]
  | .all, .inner => []
  | _, .anti => [if o.isSome then 0 else 1]

/-- What `probe` has made of the left rows -/
structure Probed (j : Join w V L) (map : Map w K V) (lefts : List (LeftRow K L)) (p : Probe w V) :
    Prop where
  added : p.addedColumns = lefts.flatMap fun l => addedOf j (find j map l)
  filter : p.filter = lefts.flatMap fun l => flagOf j (find j map l)
  offsets : j.strictness = .all →
    p.offsetsToReplicate = endsFrom 0 (lefts.map fun l => (addedOf j (find j map l)).length)
  current : j.strictness = .all → p.currentOffset = (lefts.map fun l => (addedOf j (find j map l)).length).sum

theorem Probed.row {j : Join w V L} {map : Map w K V} {lefts : List (LeftRow K L)} {p : Probe w V}
    (h : Probed j map lefts p) (l : LeftRow K L) : Probed j map (lefts ++ [l]) (probeRow j map p l) := by
  obtain ⟨hadded, hfilter, hoffsets, hcurrent⟩ := h
  unfold probeRow
  constructor
  · rw [flatMap_append, ← hadded]
    cases hf : find j map l <;> cases hs : j.strictness <;> cases hk : j.kind <;>
      simp [addFound, addNotFound, addedOf, hs, hk, hf]
  · rw [flatMap_append, ← hfilter]
    cases hf : find j map l <;> cases hs : j.strictness <;> cases hk : j.kind <;>
      simp [addFound, addNotFound, flagOf, hs, hk, hf]
  · intro hs
    rw [map_append, map_singleton, endsFrom_append, ← hoffsets hs, ← hcurrent hs]
    cases hf : find j map l <;> cases hk : j.kind <;>
      simp [addFound, addNotFound, addedOf, hs, hk]
  · intro hs
    rw [map_append, sum_append, ← hcurrent hs]
    cases hf : find j map l <;> cases hk : j.kind <;>
      simp [addFound, addNotFound, addedOf, hs, hk, hf]

theorem probe_probed (j : Join w V L) (map : Map w K V) (lefts : List (LeftRow K L)) :
    Probed j map lefts (probe j map lefts) := by
  induction lefts using List.reverseRecOn with
  | nil => exact ⟨rfl, rfl, fun _ => rfl, fun _ => rfl⟩
  | append_singleton lefts l ih =>
    have hprobe : probe j map (lefts ++ [l]) = probeRow j map (probe j map lefts) l := by simp [probe]
    rw [hprobe]
    exact ih.row l

end

variable {w : Nat} {K V L : Type*} [DecidableEq K]

/-! ## The block after the probe -/

theorem zipWith_mk_replicate (a : α) (xs : List β) :
    List.zipWith Prod.mk (List.replicate xs.length a) xs = xs.map (a, ·) := by
  induction xs with
  | nil => rfl
  | cons x xs ih =>
    rw [length_cons, replicate_succ, zipWith_cons_cons, ih, map_cons]

section All

variable (j : Join w V L) (rights : List (RightRow w K V))

/-- The candidates of a left row in the block, a placeholder where there is none. -/
def group (l : LeftRow K L) : List (Cells w V) := addedOf j (find j (buildMap j rights) l)

variable (condition : L → Cells w V → Option UInt8)

theorem isTrue_eq_value (l : L) (cells : Cells w V) :
    isTrue (condition l cells) = (value condition l cells != 0) := by
  unfold value
  cases condition l cells <;> rfl

theorem block_eq (hs : j.strictness = .all) (lefts : List (LeftRow K L)) :
    expandedBlock j (probe j (buildMap j rights) lefts) lefts
      = lefts.flatMap fun l => (group j rights l).map (l.row, ·) := by
  have hp := probe_probed j (buildMap j rights) lefts
  have hleft : leftColumns j (probe j (buildMap j rights) lefts) lefts
      = lefts.flatMap fun l => List.replicate (group j rights l).length l.row := by
    unfold leftColumns
    rw [hs, hp.offsets hs]
    exact repeatBy_endsFrom 0 (fun l => (group j rights l).length) (·.row) lefts
  rw [expandedBlock, hleft, hp.added, List.zip, zipWith_flatMap]
  · congr 1
    funext l
    exact zipWith_mk_replicate l.row (group j rights l)
  · exact fun l _ => length_replicate

/-! ## The row filter, group by group -/

theorem keptRows_length (bs : List UInt8) : (keptRows j bs).length = bs.length := by
  unfold keptRows
  cases j.originalStrictness with
  | any => exact keepFirst_length false bs
  | all => rfl

theorem keptRows_lt (hs : j.originalStrictness = .any) (bs : List UInt8) : ∀ b ∈ keptRows j bs, b < 128 := by
  unfold keptRows
  rw [hs]
  exact keepFirst_lt false bs

theorem keptRows_any (bs : List UInt8) : (keptRows j bs).any (· != 0) = bs.any (· != 0) := by
  unfold keptRows
  cases j.originalStrictness with
  | any => exact keepFirst_any bs
  | all => rfl

theorem rowFilterGroup_length (anti : UInt8) (bs : List UInt8) :
    (rowFilterGroup j anti bs).length = bs.length := by
  unfold rowFilterGroup
  cases j.kind with
  | inner => exact keptRows_length j bs
  | left =>
    simp only
    split_ifs
    · exact keptRows_length j bs
    · rw [setStart_length, keptRows_length]
  | anti =>
    simp only
    split_ifs
    · rw [setStart_length, keptRows_length]
    · rw [length_map, keptRows_length]
    · rw [setStart_length, keptRows_length]

theorem rowFilterGroup_lt (hs : j.originalStrictness = .any) (anti : UInt8) (bs : List UInt8) :
    ∀ b ∈ rowFilterGroup j anti bs, b < 128 := by
  have hrow := keptRows_lt j hs bs
  unfold rowFilterGroup
  cases j.kind with
  | inner => exact hrow
  | left =>
    simp only
    split_ifs
    · exact hrow
    · exact setStart_lt hrow
  | anti =>
    simp only
    split_ifs
    · exact setStart_lt hrow
    · intro b hb
      obtain ⟨-, -, rfl⟩ := mem_map.mp hb
      decide
    · exact setStart_lt hrow

def antiByte (l : LeftRow K L) : UInt8 := (flagOf j (find j (buildMap j rights) l)).headD 0

theorem rowFilter_eq (hs : j.strictness = .all) (vals : LeftRow K L → List UInt8)
    (lefts : List (LeftRow K L)) :
    rowFilter j (probe j (buildMap j rights) lefts).filter (lefts.map vals)
      = lefts.flatMap fun l => rowFilterGroup j (antiByte j rights l) (vals l) := by
  rw [(probe_probed j (buildMap j rights) lefts).filter]
  induction lefts with
  | nil => rfl
  | cons l lefts ih =>
    simp only [map_cons, flatMap_cons, rowFilter]
    rw [← ih]
    unfold antiByte
    -- an anti join has a byte for every left row, the other joins have none
    by_cases hk : j.kind = .anti
    · simp [flagOf, hs, hk]
    · have hflag : ∀ o, flagOf j o = [] := by
        intro o
        cases hk' : j.kind with
        | anti => exact absurd hk' hk
        | inner => simp [flagOf, hs, hk']
        | left => simp [flagOf, hk']
      have hflags : lefts.flatMap (fun l => flagOf j (find j (buildMap j rights) l)) = [] :=
        flatMap_eq_nil_iff.mpr fun l _ => hflag _
      rw [hflags, hflag]
      rfl

end All

end TiFlash.Interpreters
