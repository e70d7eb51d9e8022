import TiFlash.Flash.Proofs.EncodeTaskProofs

/-!
# Proofs: the streaming response writer

The tasks do in any order what they do one after the other, and blocks are split into batches by size. So
what the partitions receive is known, and each row is sent once iff no batch has a row in front of its last
block.
-/

namespace TiFlash.Flash

open List

variable {Row : Type} {config : WriterConfig Row}

/-! ## Batches -/

/-- The blocks that are encoded by one task each, with those collected so far. -/
def batches (recordsPerChunk : Int) : (pending : List (Block Row)) → List (Block Row) → List (List (Block Row))
  | pending, [] => if pending.flatten.length > 0 then [pending] else []
  | pending, block :: blocks =>
    if ((pending.flatten.length + block.length : Nat) : Int) > recordsPerChunk then
      (pending ++ [block]) :: batches recordsPerChunk [] blocks
    else batches recordsPerChunk (pending ++ [block]) blocks

variable (recordsPerChunk : Int)

theorem flatten_batches (pending blocks : List (Block Row)) :
    ((batches recordsPerChunk pending blocks).map flatten).flatten = pending.flatten ++ blocks.flatten := by
  induction blocks generalizing pending with
  | nil =>
    rw [batches]
    split_ifs with hrows
    · simp
    · have hempty : pending.flatten = [] := eq_nil_of_length_eq_zero (by omega)
      simp [hempty]
  | cons block blocks ih =>
    rw [batches]
    split_ifs with hfull
    · rw [map_cons, flatten_cons, ih]
      simp
    · rw [ih]
      simp

theorem batches_of_neg {recordsPerChunk : Int} (hneg : recordsPerChunk < 0) (blocks : List (Block Row)) :
    batches recordsPerChunk [] blocks = blocks.map ([·]) := by
  induction blocks with
  | nil => rfl
  | cons block blocks ih =>
    rw [batches, if_pos (by omega), ih]
    rfl

theorem batches_eq_nil_iff (pending blocks : List (Block Row)) :
    batches recordsPerChunk pending blocks = [] ↔
      pending.flatten = [] ∧ blocks.flatten = [] ∧ (blocks = [] ∨ 0 ≤ recordsPerChunk) := by
  induction blocks generalizing pending with
  | nil =>
    rw [batches, ite_eq_right_iff, gt_iff_lt, length_pos_iff]
    simp
  | cons block blocks ih =>
    rw [batches]
    by_cases hfull : ((pending.flatten.length + block.length : Nat) : Int) > recordsPerChunk
    · rw [if_pos hfull]
      refine iff_of_false (cons_ne_nil _ _) ?_
      rintro ⟨hpending, hrows, hsign⟩
      rw [flatten_cons, append_eq_nil_iff] at hrows
      rw [hpending, hrows.1] at hfull
      rcases hsign with hnil | hsign
      · cases hnil
      · exact absurd hfull (not_lt.2 hsign)
    · have hsign : 0 ≤ recordsPerChunk := by omega
      rw [if_neg hfull, ih, flatten_append, flatten_cons, append_eq_nil_iff, append_eq_nil_iff]
      simp [hsign, and_assoc]

variable {batch blocks pending : List (Block Row)}

theorem ne_nil_of_mem_batches (hbatch : batch ∈ batches recordsPerChunk pending blocks) : batch ≠ [] := by
  induction blocks generalizing pending with
  | nil =>
    rw [batches] at hbatch
    split_ifs at hbatch with hrows
    · rw [mem_singleton.1 hbatch]
      rintro rfl
      exact absurd hrows (lt_irrefl 0)
    · cases hbatch
  | cons block blocks ih =>
    rw [batches] at hbatch
    split_ifs at hbatch
    · rcases mem_cons.1 hbatch with rfl | hbatch
      · exact append_ne_nil_of_right_ne_nil _ (cons_ne_nil _ _)
      · exact ih hbatch
    · exact ih hbatch

theorem exists_batch_of_pending (hrows : pending.flatten ≠ []) (blocks : List (Block Row)) :
    ∃ batch ∈ batches recordsPerChunk pending blocks, pending ++ blocks.take 1 <+: batch := by
  induction blocks generalizing pending with
  | nil =>
    have hpos : pending.flatten.length > 0 := length_pos_iff.2 hrows
    refine ⟨pending, ?_, by rw [take_nil, append_nil]⟩
    rw [batches, if_pos hpos]
    exact mem_singleton_self _
  | cons block blocks ih =>
    rw [batches, take_succ_cons, take_zero]
    split_ifs with hfull
    · exact ⟨_, mem_cons_self, prefix_rfl⟩
    · have hmore : (pending ++ [block]).flatten ≠ [] := by
        rw [flatten_append]
        exact append_ne_nil_of_left_ne_nil hrows _
      obtain ⟨batch, hbatch, hprefix⟩ := ih hmore
      exact ⟨batch, hbatch, (prefix_append _ _).trans hprefix⟩

def OnlyLast (batch : List (Block Row)) : Prop := ∀ block ∈ batch.dropLast, block = []

theorem onlyLast_batches_iff (hpending : ∀ block ∈ pending, block = []) (blocks : List (Block Row)) :
    (∀ batch ∈ batches recordsPerChunk pending blocks, OnlyLast batch) ↔
      ∀ block ∈ blocks.dropLast, block ≠ [] → recordsPerChunk < block.length := by
  have hflatten : ∀ {pending : List (Block Row)}, (∀ block ∈ pending, block = []) → pending.flatten = [] :=
    fun h => flatten_eq_nil_iff.2 h
  induction blocks generalizing pending with
  | nil =>
    rw [batches, hflatten hpending]
    simp
  | cons block blocks ih =>
    have hlast : OnlyLast (pending ++ [block]) := by
      rw [OnlyLast, dropLast_concat]
      exact hpending
    rw [batches, hflatten hpending, length_nil, Nat.zero_add]
    by_cases hfull : ((block.length : Nat) : Int) > recordsPerChunk
    · have hrest := ih fun b (hb : b ∈ []) => absurd hb not_mem_nil
      rw [if_pos hfull, forall_mem_cons]
      refine (and_congr_right fun _ => hrest).trans ?_
      cases blocks with
      | nil => simp [hlast]
      | cons block' blocks =>
        rw [dropLast_cons_cons, forall_mem_cons]
        exact and_congr_left fun _ => iff_of_true hlast fun _ => hfull
    · rw [if_neg hfull]
      by_cases hblock : block = []
      · have hpending' : ∀ b ∈ pending ++ [block], b = [] :=
          forall_mem_append.2 ⟨hpending, forall_mem_singleton.2 hblock⟩
        refine (ih hpending').trans ?_
        cases blocks with
        | nil => simp
        | cons block' blocks =>
          rw [dropLast_cons_cons, forall_mem_cons]
          exact (and_iff_right fun hne => absurd hblock hne).symm
      · have hrows : (pending ++ [block]).flatten ≠ [] := by
          rw [flatten_append, flatten_singleton]
          exact append_ne_nil_of_right_ne_nil _ hblock
        cases blocks with
        | nil =>
          have hpos : (pending ++ [block]).flatten.length > 0 := length_pos_iff.2 hrows
          rw [batches, if_pos hpos]
          simp [hlast]
        | cons block' blocks =>
          -- the block stands in front of the next one in its batch
          refine iff_of_false (fun hall => ?_) fun hall => ?_
          · obtain ⟨batch, hbatch, suffix, rfl⟩ := exists_batch_of_pending recordsPerChunk hrows (block' :: blocks)
            refine hblock (hall _ hbatch block ?_)
            have hshape : pending ++ [block] ++ take 1 (block' :: blocks) ++ suffix
                = (pending ++ [block]) ++ ([block'] ++ suffix) := by simp
            rw [hshape, dropLast_append_of_ne_nil (by simp)]
            exact mem_append_left _ (mem_append_right _ (mem_singleton_self _))
          · exact hfull (hall block (by rw [dropLast_cons_cons]; exact mem_cons_self) hblock)

namespace StreamingDAGResponseWriter

/-! ## Runs -/

def ofCall : Option (Block Row) → Action Row
  | some block => .write block
  | none => .finishWrite

/-- The tasks of a writer that is called without a step of a task in between. -/
theorem tasks_of_calls (blocks : List (Block Row)) {w : StreamingDAGResponseWriter Row}
    (hrows : w.rowsInBlocks = w.blocks.flatten.length) :
    (w.run config ((blocks.map some ++ [none]).map ofCall)).tasks =
      w.tasks ++ (batches config.recordsPerChunk w.blocks blocks).map (encodeTask config) := by
  induction blocks generalizing w with
  | nil =>
    show (w.finishWrite config).tasks = _
    rw [finishWrite, batches, hrows]
    split_ifs with hpos
    · rfl
    · simp
  | cons block blocks ih =>
    show ((w.write config block).run config ((blocks.map some ++ [none]).map ofCall)).tasks = _
    have hlen : w.rowsInBlocks + block.length = (w.blocks ++ [block]).flatten.length := by
      rw [hrows, flatten_append, flatten_singleton, length_append]
    rw [batches, ← hrows]
    by_cases hfull : ((w.rowsInBlocks + block.length : Nat) : Int) > config.recordsPerChunk
    · have hwrite : w.write config block = scheduleEncodeTask config
          { w with blocks := w.blocks ++ [block], rowsInBlocks := w.rowsInBlocks + block.length } := if_pos hfull
      rw [hwrite, ih rfl, if_pos hfull]
      simp [scheduleEncodeTask]
    · have hwrite : w.write config block =
          { w with blocks := w.blocks ++ [block], rowsInBlocks := w.rowsInBlocks + block.length } := if_neg hfull
      rw [hwrite, ih hlen, if_neg hfull]

def writtenSteps (w : StreamingDAGResponseWriter Row) : List TaskStep :=
  w.written.map fun write => .write write.1 write.2

/-- `w` has been called like `w₀`, and some of the steps of the tasks have been made. -/
structure Shadows (w w₀ : StreamingDAGResponseWriter Row) : Prop where
  blocks : w.blocks = w₀.blocks
  rowsInBlocks : w.rowsInBlocks = w₀.rowsInBlocks
  moved : (w.writtenSteps ++ w.tasks.flatten).Perm w₀.tasks.flatten

variable {w w₀ : StreamingDAGResponseWriter Row}

theorem Shadows.scheduleEncodeTask (config : WriterConfig Row) (h : w.Shadows w₀) :
    (w.scheduleEncodeTask config).Shadows (w₀.scheduleEncodeTask config) := by
  refine ⟨rfl, rfl, ?_⟩
  simp only [StreamingDAGResponseWriter.scheduleEncodeTask, flatten_append, h.blocks]
  rw [← append_assoc]
  exact h.moved.append_right _

theorem Shadows.write (h : w.Shadows w₀) (block : Block Row) :
    (w.write config block).Shadows (w₀.write config block) := by
  have hnext : StreamingDAGResponseWriter.Shadows
      { w with blocks := w.blocks ++ [block], rowsInBlocks := w.rowsInBlocks + block.length }
      { w₀ with blocks := w₀.blocks ++ [block], rowsInBlocks := w₀.rowsInBlocks + block.length } :=
    ⟨congrArg (· ++ [block]) h.blocks, congrArg (· + block.length) h.rowsInBlocks, h.moved⟩
  simp only [StreamingDAGResponseWriter.write, h.rowsInBlocks]
  split_ifs with hfull
  · have hsame := hnext.scheduleEncodeTask config
    rwa [h.rowsInBlocks] at hsame
  · rwa [h.rowsInBlocks] at hnext

theorem Shadows.finishWrite (h : w.Shadows w₀) :
    (w.finishWrite config).Shadows (w₀.finishWrite config) := by
  simp only [StreamingDAGResponseWriter.finishWrite, h.rowsInBlocks]
  split_ifs with hrows
  · exact h.scheduleEncodeTask config
  · exact h

theorem Shadows.runTask (h : w.Shadows w₀) (i : Nat) :
    (w.runTask i).Shadows w₀ := by
  unfold StreamingDAGResponseWriter.runTask
  split
  · rename_i partition response rest htask
    refine ⟨h.blocks, h.rowsInBlocks, List.Perm.trans ?_ h.moved⟩
    obtain ⟨hi, hget⟩ := List.getElem?_eq_some_iff.1 htask
    have hold : w.tasks = w.tasks.take i ++ (.write partition response :: rest) :: w.tasks.drop (i + 1) := by
      rw [← hget, cons_getElem_drop_succ, take_append_drop]
    have hset : w.tasks.set i rest = w.tasks.take i ++ rest :: w.tasks.drop (i + 1) :=
      set_eq_take_append_cons_drop.trans (if_pos hi)
    have hflatten : w.tasks.flatten = (w.tasks.take i).flatten ++
        (.write partition response :: rest) ++ (w.tasks.drop (i + 1)).flatten := by
      conv_lhs => rw [hold]
      simp
    simp only [writtenSteps, map_append, map_singleton, hset, flatten_append, flatten_cons,
      hflatten, append_assoc]
    refine List.Perm.append_left _ ?_
    show (.write partition response :: ((w.tasks.take i).flatten ++ (rest ++ (w.tasks.drop (i + 1)).flatten))).Perm
      ((w.tasks.take i).flatten ++ .write partition response :: (rest ++ (w.tasks.drop (i + 1)).flatten))
    exact perm_middle.symm
  · exact h

theorem shadows_run (config : WriterConfig Row) (actions : List (Action Row)) (h : w.Shadows w₀) :
    (w.run config actions).Shadows (w₀.run config ((calls actions).map ofCall)) := by
  induction actions generalizing w w₀ with
  | nil => exact h
  | cons action actions ih =>
    cases action with
    | write block => exact ih (h.write block)
    | finishWrite => exact ih h.finishWrite
    | runTask i => exact ih (h.runTask i)

theorem received_eq_delivered (w : StreamingDAGResponseWriter Row) (partition : Option Nat) :
    w.received config partition = delivered config partition w.writtenSteps := by
  simp only [received, delivered, writtenSteps, flatMap_map]
  induction w.written with
  | nil => rfl
  | cons write written ih =>
    by_cases hp : write.1 = partition <;> simp [hp, ih]

theorem fail_notMem_writtenSteps (w : StreamingDAGResponseWriter Row) (e : TaskError) :
    .fail e ∉ w.writtenSteps := by
  intro hmem
  obtain ⟨write, -, hwrite⟩ := mem_map.1 hmem
  cases hwrite

theorem exists_run_tasks (config : WriterConfig Row) {w : StreamingDAGResponseWriter Row}
    (hfail : ∀ task ∈ w.tasks, ∀ e, .fail e ∉ task) :
    ∃ actions, calls actions = [] ∧ ∀ task ∈ (w.run config actions).tasks, task = [] := by
  induction hsize : w.tasks.flatten.length generalizing w with
  | zero =>
    have hempty := eq_nil_of_length_eq_zero hsize
    exact ⟨[], rfl, flatten_eq_nil_iff.1 hempty⟩
  | succ size ih =>
    obtain ⟨task, htask, hne⟩ : ∃ task ∈ w.tasks, task ≠ [] := by
      by_contra hnone
      push Not at hnone
      rw [flatten_eq_nil_iff.2 hnone] at hsize
      cases hsize
    obtain ⟨i, hi, rfl⟩ := getElem_of_mem htask
    obtain ⟨partition, response, rest, hcons⟩ : ∃ partition response rest,
        w.tasks[i] = .write partition response :: rest := by
      cases hcase : w.tasks[i] with
      | nil => exact absurd hcase hne
      | cons step rest =>
        cases step with
        | write partition response => exact ⟨partition, response, rest, rfl⟩
        | fail e => exact absurd (hcase ▸ mem_cons_self) (hfail _ htask e)
    have hget : w.tasks[i]? = some (.write partition response :: rest) := by
      rw [getElem?_eq_getElem hi, hcons]
    have hstep : w.runTask i =
        { w with tasks := w.tasks.set i rest, written := w.written ++ [(partition, response)] } := by
      simp only [runTask, hget]
    have hfail' : ∀ task ∈ (w.runTask i).tasks, ∀ e, .fail e ∉ task := by
      rw [hstep]
      intro t ht e he
      rcases mem_or_eq_of_mem_set ht with hold | rfl
      · exact hfail t hold e he
      · exact hfail _ htask e (hcons ▸ mem_cons_of_mem _ he)
    have hsize' : (w.runTask i).tasks.flatten.length = size := by
      have hset : w.tasks.set i rest = w.tasks.take i ++ rest :: w.tasks.drop (i + 1) :=
        set_eq_take_append_cons_drop.trans (if_pos hi)
      have hold : w.tasks = w.tasks.take i ++ w.tasks[i] :: w.tasks.drop (i + 1) := by
        rw [cons_getElem_drop_succ, take_append_drop]
      rw [hold, hcons] at hsize
      rw [hstep, hset]
      simp only [flatten_append, flatten_cons, length_append, length_cons] at hsize ⊢
      omega
    obtain ⟨actions, hcalls, hdone⟩ := ih hfail' hsize'
    exact ⟨.runTask i :: actions, hcalls, hdone⟩

end StreamingDAGResponseWriter

open StreamingDAGResponseWriter

/-! ## Exactly once -/

/-- For every schedule no task fails, and in the end each row was received once, for a hash exchange by the
partition of its key. -/
def ExactlyOnce (config : WriterConfig Row) (blocks : List (Block Row)) : Prop :=
  ∀ actions, calls actions = blocks.map some ++ [none] → let w := run config {} actions
    (∀ task ∈ w.tasks, ∀ e, .fail e ∉ task) ∧ ((∀ task ∈ w.tasks, task = []) →
        if config.exchangeType = .hash then
          ∀ p < config.partitions, (w.received config (some p) : Multiset Row) =
            (blocks.flatten.filter fun row => config.keyHash row % config.partitions = p : List Row)
        else (w.received config none : Multiset Row) = blocks.flatten)

def allSteps (config : WriterConfig Row) (blocks : List (Block Row)) : List TaskStep :=
  ((batches config.recordsPerChunk [] blocks).map (encodeTask config)).flatten

/-- The order in which the steps are made does not matter. -/
theorem exactlyOnce_iff_allSteps :
    ExactlyOnce config blocks ↔ (∀ e, .fail e ∉ allSteps config blocks) ∧ if config.exchangeType = .hash then
        ∀ p < config.partitions, (delivered config (some p) (allSteps config blocks) : Multiset Row) =
          (blocks.flatten.filter fun row => config.keyHash row % config.partitions = p : List Row)
      else (delivered config none (allSteps config blocks) : Multiset Row) = blocks.flatten := by
  have hshadows : ∀ actions, calls actions = blocks.map some ++ [none] →
      ((run config {} actions).writtenSteps ++ (run config {} actions).tasks.flatten).Perm
        (allSteps config blocks) := by
    intro actions hcalls
    have hinit : ({} : StreamingDAGResponseWriter Row).Shadows {} := ⟨rfl, rfl, .refl _⟩
    have hmoved := (shadows_run config actions hinit).moved
    rw [hcalls, tasks_of_calls blocks rfl] at hmoved
    exact hmoved
  have hfails : ∀ actions, calls actions = blocks.map some ++ [none] →
      ((∀ task ∈ (run config {} actions).tasks, ∀ e, .fail e ∉ task) ↔ ∀ e, .fail e ∉ allSteps config blocks) := by
    intro actions hcalls
    simp only [← (hshadows actions hcalls).mem_iff, mem_append, fail_notMem_writtenSteps, false_or,
      mem_flatten, not_exists, not_and]
    exact ⟨fun h e task htask => h task htask e, fun h task htask e => h e task htask⟩
  have hreceived : ∀ actions, calls actions = blocks.map some ++ [none] →
      (∀ task ∈ (run config {} actions).tasks, task = []) → ∀ partition,
        ((run config {} actions).received config partition : Multiset Row) =
          delivered config partition (allSteps config blocks) := by
    intro actions hcalls hdone partition
    have hperm := hshadows actions hcalls
    rw [flatten_eq_nil_iff.2 hdone, append_nil] at hperm
    rw [received_eq_delivered, Multiset.coe_eq_coe]
    exact hperm.flatMap_right _
  constructor
  · intro honce
    have hstart : calls ((blocks.map some ++ [none]).map ofCall) = blocks.map some ++ [none] := by
      generalize blocks.map some ++ [none] = cs
      induction cs with
      | nil => rfl
      | cons c cs ih =>
        cases c with
        | none => exact congrArg (none :: ·) ih
        | some block => exact congrArg (some block :: ·) ih
    obtain ⟨hfail, -⟩ := honce _ hstart
    obtain ⟨actions, hnone, hdone⟩ := exists_run_tasks config hfail
    have hcalls : calls ((blocks.map some ++ [none]).map ofCall ++ actions) = blocks.map some ++ [none] := by
      simp only [calls, filterMap_append] at hstart hnone ⊢
      rw [hstart, hnone, append_nil]
    have hend : ∀ task ∈ (run config {} ((blocks.map some ++ [none]).map ofCall ++ actions)).tasks, task = [] := by
      simp only [run, foldl_append] at hdone ⊢
      exact hdone
    refine ⟨(hfails _ hstart).1 hfail, ?_⟩
    have hrows := (honce _ hcalls).2 hend
    simp only [hreceived _ hcalls hend] at hrows
    exact hrows
  · rintro ⟨hfail, hrows⟩ actions hcalls
    refine ⟨(hfails actions hcalls).2 hfail, fun hdone => ?_⟩
    simp only [hreceived actions hcalls hdone]
    exact hrows

theorem delivered_flatten (config : WriterConfig Row) (partition : Option Nat) (tasks : List (List TaskStep)) :
    delivered config partition tasks.flatten = (tasks.map (delivered config partition)).flatten := by
  induction tasks with
  | nil => rfl
  | cons task tasks ih =>
    rw [flatten_cons, delivered_append, ih]
    rfl

section

variable (hhash : config.exchangeType = .hash)
include hhash

variable (blocks : List (Block Row))

theorem noSuchTunnel_mem_allSteps (hparts : 2 ^ 15 < config.partitionNum)
    (hbatches : batches config.recordsPerChunk [] blocks ≠ []) :
    .fail .noSuchTunnel ∈ allSteps config blocks := by
  obtain ⟨batch, hbatch⟩ := exists_mem_of_ne_nil _ hbatches
  refine mem_flatten.2 ⟨_, mem_map_of_mem hbatch, ?_⟩
  rw [encodeTask, if_pos hhash]
  exact noSuchTunnel_mem_encodePartitions _ hparts (ne_nil_of_mem_batches _ hbatch)

variable (hparts : config.partitionNum ≤ 2 ^ 15)
include hparts

theorem delivered_allSteps_hash {p : Nat} (hp : p < config.partitionNum) :
    (delivered config (some p) (allSteps config blocks) : Multiset Row) =
      (destBlock config blocks.flatten p : Multiset Row) +
        ((batches config.recordsPerChunk [] blocks).map (repeated config p)).sum := by
  have hrows := flatten_batches config.recordsPerChunk [] blocks
  rw [flatten_nil, nil_append] at hrows
  rw [allSteps, delivered_flatten, ← hrows]
  induction batches config.recordsPerChunk [] blocks with
  | nil => rfl
  | cons batch rest ih =>
    have htask : (delivered config (some p) (encodeTask config batch) : Multiset Row) =
        (destBlock config batch.flatten p : Multiset Row) + repeated config p batch := by
      rw [encodeTask, if_pos hhash, getEncodePartitionTask, delivered_encodePartitions _ hparts _ hp]
      simp
    have hsplit : destBlock config ((batch :: rest).map flatten).flatten p =
        destBlock config batch.flatten p ++ destBlock config (rest.map flatten).flatten p := by
      exact filter_append ..
    simp only [map_cons, flatten_cons, sum_cons, ← Multiset.coe_add] at ih ⊢
    rw [ih, htask, ← flatten_cons, ← map_cons, hsplit, ← Multiset.coe_add]
    abel

theorem delivered_allSteps_hash_of_le {p : Nat} (hp : config.partitionNum ≤ p) :
    delivered config (some p) (allSteps config blocks) = [] := by
  rw [allSteps, delivered_flatten, map_map, flatten_eq_nil_iff]
  intro rows hrows
  obtain ⟨batch, -, rfl⟩ := mem_map.1 hrows
  rw [Function.comp_apply, encodeTask, if_pos hhash]
  exact delivered_encodePartitions_of_le _ hparts _ hp

theorem fail_mem_allSteps_hash :
    (∃ e, .fail e ∈ allSteps config blocks) ↔ config.partitionNum = 0 ∧ blocks.flatten ≠ [] := by
  have hrows := flatten_batches config.recordsPerChunk [] blocks
  rw [flatten_nil, nil_append] at hrows
  simp only [allSteps, mem_flatten, mem_map, exists_exists_and_eq_and]
  rw [← hrows, ne_eq, flatten_eq_nil_iff]
  simp only [encodeTask, if_pos hhash, forall_mem_map]
  constructor
  · rintro ⟨e, batch, hbatch, hfail⟩
    obtain ⟨hzero, hne⟩ := (fail_mem_encodePartitions _ hparts batch).1 ⟨e, hfail⟩
    exact ⟨hzero, fun hall => hne (hall batch hbatch)⟩
  · rintro ⟨hzero, hsome⟩
    push Not at hsome
    obtain ⟨batch, hbatch, hne⟩ := hsome
    obtain ⟨e, hfail⟩ := (fail_mem_encodePartitions (fun _ => []) hparts batch).2 ⟨hzero, hne⟩
    exact ⟨e, batch, hbatch, hfail⟩

end

theorem onlyLast_iff_repeated (hparts : config.partitionNum ≠ 0) (batch : List (Block Row)) :
    OnlyLast batch ↔ ∀ p < config.partitionNum, repeated config p batch = 0 := by
  simp only [repeated_eq_zero_iff, OnlyLast]
  constructor
  · intro h p _ block hblock
    rw [h block hblock]
    rfl
  · intro h block hblock
    refine eq_nil_iff_forall_not_mem.2 fun row hrow => ?_
    have hpart : config.keyHash row % config.partitionNum < config.partitionNum :=
      Nat.mod_lt _ (Nat.pos_of_ne_zero hparts)
    have hnil := h _ hpart block hblock
    have hmem : row ∈ destBlock config block (config.keyHash row % config.partitionNum) :=
      mem_filter.2 ⟨hrow, decide_eq_true rfl⟩
    rw [hnil] at hmem
    exact not_mem_nil hmem

/-- Every block with rows but the last is larger than `records_per_chunk`, so no other follows in its batch;
the number of partitions keeps its upper bits, or the hashes do not show it; and every partition is an
`int16_t`, or there is nothing to encode. -/
structure HashSafe (config : WriterConfig Row) (blocks : List (Block Row)) : Prop where
  flushed : ∀ block ∈ blocks.dropLast, block ≠ [] → config.recordsPerChunk < block.length
  partition : ∀ row ∈ blocks.flatten, config.partitionNum ≠ 0 ∧
    config.keyHash row % config.partitionNum = config.keyHash row % config.partitions
  tunnels : 2 ^ 15 < config.partitionNum →
    blocks.flatten = [] ∧ (blocks = [] ∨ 0 ≤ config.recordsPerChunk)

/-- With more than `2 ^ 15` partitions every task fails. -/
theorem exactlyOnce_hash_iff_of_lt (hhash : config.exchangeType = .hash) (hparts : 2 ^ 15 < config.partitionNum)
    (blocks : List (Block Row)) : ExactlyOnce config blocks ↔ HashSafe config blocks := by
  have hnil := batches_eq_nil_iff config.recordsPerChunk [] blocks
  rw [exactlyOnce_iff_allSteps, if_pos hhash]
  constructor
  · rintro ⟨hnofail, -⟩
    obtain ⟨-, hrows, hsign⟩ := hnil.1 (by_contra fun hsome =>
      hnofail _ (noSuchTunnel_mem_allSteps hhash blocks hparts hsome))
    refine ⟨fun block hblock hne => ?_, fun row hrow => ?_, fun _ => ⟨hrows, hsign⟩⟩
    · exact absurd (flatten_eq_nil_iff.1 hrows block (mem_of_mem_dropLast hblock)) hne
    · rw [hrows] at hrow
      cases hrow
  · rintro ⟨-, -, htunnels⟩
    obtain ⟨hrows, hsign⟩ := htunnels hparts
    rw [allSteps, hnil.2 ⟨rfl, hrows, hsign⟩, hrows]
    exact ⟨fun _ => not_mem_nil, fun _ _ => rfl⟩

theorem exactlyOnce_hash_iff (hhash : config.exchangeType = .hash) (blocks : List (Block Row)) :
    ExactlyOnce config blocks ↔ HashSafe config blocks := by
  rcases lt_or_ge (2 ^ 15) config.partitionNum with hmany | hfew
  · exact exactlyOnce_hash_iff_of_lt hhash hmany blocks
  have hle : config.partitionNum ≤ config.partitions := Nat.mod_le _ _
  have hbatches := onlyLast_batches_iff config.recordsPerChunk
    (fun b (hb : b ∈ ([] : List (Block Row))) => absurd hb not_mem_nil) blocks
  have hfail := fail_mem_allSteps_hash hhash blocks hfew
  rw [exactlyOnce_iff_allSteps, if_pos hhash]
  constructor
  · rintro ⟨hnofail, hrows⟩
    have hparts : ∀ row ∈ blocks.flatten, config.partitionNum ≠ 0 := by
      intro row hrow hzero
      obtain ⟨e, he⟩ := hfail.2 ⟨hzero, ne_nil_of_mem hrow⟩
      exact hnofail e he
    have hpartition : ∀ row ∈ blocks.flatten,
        config.keyHash row % config.partitionNum = config.keyHash row % config.partitions := by
      intro row hrow
      have hlt := Nat.mod_lt (config.keyHash row) (Nat.pos_of_ne_zero (hparts row hrow))
      have heq := hrows _ (hlt.trans_le hle)
      rw [delivered_allSteps_hash hhash blocks hfew hlt] at heq
      -- the row is received by the partition of the truncated number, so it has to be expected there
      have hmem : row ∈ (blocks.flatten.filter fun r =>
          config.keyHash r % config.partitions = config.keyHash row % config.partitionNum : List Row) := by
        rw [← Multiset.mem_coe, ← heq, Multiset.mem_add]
        exact .inl (mem_filter.2 ⟨hrow, decide_eq_true rfl⟩)
      exact (of_decide_eq_true (mem_filter.1 hmem).2).symm
    refine ⟨hbatches.1 fun batch hbatch => ?_, fun row hrow => ⟨hparts row hrow, hpartition row hrow⟩,
      fun hmany => absurd hfew (not_le.2 hmany)⟩
    by_cases hzero : config.partitionNum = 0
    · -- there are no rows at all
      intro block hblock
      refine eq_nil_iff_forall_not_mem.2 fun row hrow => ?_
      have hall := flatten_batches config.recordsPerChunk [] blocks
      refine hparts row ?_ hzero
      rw [← nil_append blocks.flatten, ← flatten_nil, ← hall]
      exact mem_flatten.2 ⟨batch.flatten, mem_map_of_mem hbatch,
        mem_flatten.2 ⟨block, mem_of_mem_dropLast hblock, hrow⟩⟩
    · refine (onlyLast_iff_repeated hzero batch).2 fun p hp => ?_
      have heq := hrows p (hp.trans_le hle)
      have hfilter : (blocks.flatten.filter fun row => config.keyHash row % config.partitions = p : List Row) =
          destBlock config blocks.flatten p :=
        filter_congr fun row hrow => by rw [hpartition row hrow]
      rw [delivered_allSteps_hash hhash blocks hfew hp, hfilter, add_eq_left, sum_eq_zero_iff] at heq
      exact heq _ (mem_map_of_mem hbatch)
  · rintro ⟨hflushed, hpartition, -⟩
    refine ⟨fun e he => ?_, fun p hp => ?_⟩
    · obtain ⟨hzero, hne⟩ := hfail.1 ⟨e, he⟩
      obtain ⟨row, hrow⟩ := exists_mem_of_ne_nil _ hne
      exact (hpartition row hrow).1 hzero
    · have hfilter : (blocks.flatten.filter fun row => config.keyHash row % config.partitions = p : List Row) =
          destBlock config blocks.flatten p :=
        filter_congr fun row hrow => by rw [(hpartition row hrow).2]
      rw [hfilter]
      rcases lt_or_ge p config.partitionNum with hlt | hge
      · rw [delivered_allSteps_hash hhash blocks hfew hlt, add_eq_left, sum_eq_zero_iff]
        intro extra hextra
        obtain ⟨batch, hbatch, rfl⟩ := mem_map.1 hextra
        exact (onlyLast_iff_repeated (Nat.ne_of_gt (Nat.zero_lt_of_lt hlt)) batch).1
          (hbatches.2 hflushed batch hbatch) p hlt
      · rw [delivered_allSteps_hash_of_le hhash blocks hfew hge]
        have hnone : destBlock config blocks.flatten p = [] := by
          refine eq_nil_iff_forall_not_mem.2 fun row hrow => ?_
          obtain ⟨hin, heq⟩ := mem_filter.1 hrow
          have hlt := Nat.mod_lt (config.keyHash row) (Nat.pos_of_ne_zero (hpartition row hin).1)
          exact absurd (of_decide_eq_true heq) (by omega)
        rw [hnone]

theorem flatten_ne_nil_of_mem_batches {recordsPerChunk : Int} (hnonneg : 0 ≤ recordsPerChunk) (hbatch : batch ∈ batches recordsPerChunk pending blocks) :
    batch.flatten ≠ [] := by
  induction blocks generalizing pending with
  | nil =>
    rw [batches] at hbatch
    split_ifs at hbatch with hrows
    · rw [mem_singleton.1 hbatch]
      exact length_pos_iff.1 hrows
    · exact absurd hbatch not_mem_nil
  | cons block blocks ih =>
    rw [batches] at hbatch
    split_ifs at hbatch with hfull
    · rcases mem_cons.1 hbatch with rfl | hbatch
      · rw [← length_pos_iff, flatten_append, flatten_singleton, length_append]
        omega
      · exact ih hbatch
    · exact ih hbatch

theorem exactlyOnce_passThrough_iff (hexchange : config.exchangeType ≠ .hash) (blocks : List (Block Row)) :
    ExactlyOnce config blocks ↔ (config.recordsPerChunk = 0 → blocks.flatten = []) := by
  have hrows := flatten_batches config.recordsPerChunk [] blocks
  rw [flatten_nil, nil_append] at hrows
  rw [exactlyOnce_iff_allSteps, if_neg hexchange]
  by_cases hchunk : config.recordsPerChunk = 0
  · -- a task with a row would not end, and there is no other
    have hfail : ∀ batch ∈ batches config.recordsPerChunk [] blocks, .fail .endless ∈ allSteps config blocks := by
      intro batch hbatch
      refine mem_flatten.2 ⟨encodeTask config batch, mem_map_of_mem hbatch, ?_⟩
      rw [encodeTask, if_neg hexchange, getEncodeTask,
        encodeChunks_zero hchunk (flatten_ne_nil_of_mem_batches hchunk.ge hbatch)]
      exact mem_singleton_self _
    constructor
    · rintro ⟨hnofail, -⟩ -
      have hnone : batches config.recordsPerChunk [] blocks = [] :=
        eq_nil_iff_forall_not_mem.2 fun batch hbatch => hnofail _ (hfail batch hbatch)
      rw [← hrows, hnone]
      rfl
    · intro hempty
      have hnil := hempty hchunk
      have hnone : batches config.recordsPerChunk [] blocks = [] := by
        refine eq_nil_iff_forall_not_mem.2 fun batch hbatch => ?_
        refine flatten_ne_nil_of_mem_batches hchunk.ge hbatch ?_
        rw [← hrows] at hnil
        exact flatten_eq_nil_iff.1 hnil _ (mem_map_of_mem hbatch)
      rw [allSteps, hnone, hnil]
      exact ⟨fun e => not_mem_nil, rfl⟩
  · refine iff_of_true ?_ fun h => absurd h hchunk
    have hone : ∀ batch ∈ batches config.recordsPerChunk [] blocks,
        config.encodeType = .chBlock → ∃ block, batch = [block] := by
      intro batch hbatch htype
      rw [batches_of_neg (by rw [recordsPerChunk_chBlock htype]; decide)] at hbatch
      obtain ⟨block, -, rfl⟩ := mem_map.1 hbatch
      exact ⟨block, rfl⟩
    have htask : ∀ batch ∈ batches config.recordsPerChunk [] blocks,
        ∃ response : SelectResponse, encodeTask config batch = [.write none response] ∧
          response.decode config.codecs = batch.flatten := by
      intro batch hbatch
      obtain ⟨chunks, hok, hdecode⟩ := encodeChunks_spec hchunk (hone batch hbatch)
      refine ⟨⟨config.encodeType, chunks⟩, ?_, hdecode⟩
      rw [encodeTask, if_neg hexchange, getEncodeTask, hok]
    refine ⟨fun e he => ?_, ?_⟩
    · obtain ⟨task, hmem, hfail⟩ := mem_flatten.1 he
      obtain ⟨batch, hbatch, rfl⟩ := mem_map.1 hmem
      obtain ⟨response, hwrite, -⟩ := htask batch hbatch
      rw [hwrite, mem_singleton] at hfail
      cases hfail
    · rw [allSteps, delivered_flatten, map_map, ← hrows]
      congr 2
      refine map_congr_left fun batch hbatch => ?_
      obtain ⟨response, hwrite, hdecode⟩ := htask batch hbatch
      rw [Function.comp_apply, hwrite, ← hdecode]
      simp [delivered]

/-! ## The exchange -/

/-- Codecs for rows of one bit, of which a block is delimited by a zero byte. -/
def bitCodecs : ChunkCodecs Bool where
  encodeRow row := [if row then 1 else 2]
  decodeDefault := map (· = 1)
  decodeDefault_encode rows := by
    induction rows with
    | nil => rfl
    | cons row rows ih => cases row <;> simpa using ih
  encodeChunk := map fun row => if row then 1 else 2
  decodeArrow := map (· = 1)
  decodeArrow_encode rows := by
    induction rows with
    | nil => rfl
    | cons row rows ih => cases row <;> simpa using ih
  encodeBlock rows := rows.map (fun row => if row then 1 else 2) ++ [0]
  decodeBlock bytes := (bytes.takeWhile (· ≠ 0)).map (· = 1)
  decodeBlock_nil := rfl
  decodeBlock_encode rows rest := by
    induction rows with
    | nil => rfl
    | cons row rows ih => cases row <;> simpa using ih

end TiFlash.Flash
