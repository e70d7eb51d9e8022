import TiFlash.Flash.Proofs.ExchangeReceiverProofs

/-!
# The receiver sees the whole stream or an error, on safe runs

The number of live connections is the number of threads that have not ended. When it is zero and no thread
has met an error, every source is settled.
-/

namespace TiFlash.Flash

open ExchangeSource List

namespace Exchange

variable {n : Nat} {Data : Type} {e : Exchange n Data}

/-! ## The invariant -/

def buffered (e : Exchange n Data) (i : Fin n) : List Data :=
  e.buffer.filterMap fun p => if p.1 = i then some p.2 else none

def got (e : Exchange n Data) (i : Fin n) : List Data := e.returned i ++ e.buffered i

def live (sources : Fin n → ExchangeSource Data) : Finset (Fin n) :=
  Finset.univ.filter fun i => (sources i).reader ≠ .ended

/-- The invariant of an exchange -/
structure Inv (e : Exchange n Data) : Prop where
  source : ∀ i, (e.sources i).Inv (e.got i) (e.meetError = true)
  live_eq : e.inited = true → e.liveConnections = (live e.sources).card
  not_inited : e.inited = false → e.liveConnections = 0 ∧ ∀ i, (e.sources i).reader = .idle
  error_why : e.meetError = true → ∃ i, (e.sources i).broken = true ∨ (e.sources i).Sick
  error_reported : ∀ msg, .error msg ∈ e.reported → e.meetError = true
  eof_reported : .eof ∈ e.reported →
    e.buffer = [] ∧ ∀ i, (e.sources i).reader = .ended ∧ (e.sources i).Settled

theorem inv_start (ids : Fin n → MPPTaskId) (receiver : MPPTaskId) (timeout : Fin n → Nat) :
    (start ids receiver timeout : Exchange n Data).Inv := by
  refine ⟨fun i => ?_, fun h => ?_, fun _ => ⟨rfl, fun _ => rfl⟩, fun h => ?_, fun msg h => ?_, fun h => ?_⟩
  · refine ⟨fun _ => rfl, fun h => ?_, fun h => ?_, fun h => ?_, fun h => ?_, fun h => ?_, fun h => ?_,
      fun h => absurd h not_hasError_nil, fun _ _ => rfl, fun _ => rfl⟩
    · cases h
    · cases h
    · rcases h with h | h <;> cases h
    · cases h
    · rcases h with h | h <;> cases h
    · cases h
  · cases h
  · cases h
  · exact absurd h not_mem_nil
  · exact absurd h not_mem_nil

/-! ## Steps of a source -/

@[simp] theorem modify_self (i : Fin n) (f : ExchangeSource Data → ExchangeSource Data) :
    (e.modify i f).sources i = f (e.sources i) := Function.update_self ..

theorem modify_of_ne {i j : Fin n} (h : j ≠ i) (f : ExchangeSource Data → ExchangeSource Data) :
    (e.modify i f).sources j = e.sources j := Function.update_of_ne h ..

variable {i : Fin n} {f : ExchangeSource Data → ExchangeSource Data}

/-- What holds for the new source and for the old ones holds for all. -/
theorem modify_forall {P : Fin n → ExchangeSource Data → Prop} (hi : P i (f (e.sources i)))
    (hj : ∀ j, j ≠ i → P j (e.sources j)) (j : Fin n) : P j ((e.modify i f).sources j) := by
  by_cases h : j = i
  · subst h
    rw [modify_self]
    exact hi
  · rw [modify_of_ne h]
    exact hj j h

theorem live_modify (h : (f (e.sources i)).reader = .ended ↔ (e.sources i).reader = .ended) :
    live (e.modify i f).sources = live e.sources := by
  ext j
  simp only [live, Finset.mem_filter, Finset.mem_univ, true_and]
  refine not_congr ?_
  exact modify_forall (P := fun j s => s.reader = .ended ↔ (e.sources j).reader = .ended) h
    (fun _ _ => Iff.rfl) j

theorem error_why_modify (hbroken : (e.sources i).broken = true → (f (e.sources i)).broken = true)
    (hsick : (e.sources i).Sick → (f (e.sources i)).Sick)
    (h : ∃ j, (e.sources j).broken = true ∨ (e.sources j).Sick) :
    ∃ j, ((e.modify i f).sources j).broken = true ∨ ((e.modify i f).sources j).Sick := by
  obtain ⟨j, hj⟩ := h
  refine ⟨j, ?_⟩
  by_cases heq : j = i
  · subst heq
    rw [modify_self]
    exact hj.imp hbroken hsick
  · rw [modify_of_ne heq]
    exact hj

theorem Inv.modify (h : e.Inv) (hk : (e.sources i).Keeps (f (e.sources i))) : (e.modify i f).Inv where
  source := modify_forall (P := fun j s => s.Inv (e.got j) (e.meetError = true))
    (hk.inv _ _ (h.source i)) fun j _ => h.source j
  live_eq hinited := by
    rw [live_modify hk.ended_iff]
    exact h.live_eq hinited
  not_inited hinited := by
    obtain ⟨hlive, hidle⟩ := h.not_inited hinited
    exact ⟨hlive, modify_forall (P := fun _ s => s.reader = .idle) (hk.idle (hidle i)) fun j _ => hidle j⟩
  error_why hmeet := error_why_modify hk.broken hk.sick (h.error_why hmeet)
  error_reported := h.error_reported
  eof_reported heof := by
    obtain ⟨hbuffer, hall⟩ := h.eof_reported heof
    refine ⟨hbuffer, modify_forall (P := fun _ s => s.reader = .ended ∧ s.Settled) ?_ fun j _ => hall j⟩
    exact ⟨hk.ended_iff.2 (hall i).1, (hk.settled (hall i).2).1⟩

/-! ## Steps of the receiver -/

section

variable (h : e.Inv)
include h

theorem Inv.init : e.init.Inv := by
  unfold Exchange.init
  split_ifs with hinited
  · exact h
  · obtain ⟨hlive, hidle⟩ := h.not_inited (Bool.eq_false_iff.2 hinited)
    refine ⟨h.source, fun _ => ?_, fun h' => ?_, h.error_why, h.error_reported, h.eof_reported⟩
    · have hall : Exchange.live e.sources = Finset.univ := by
        refine Finset.filter_true_of_mem fun i _ => ?_
        rw [hidle i]
        decide
      rw [hlive, hall, Finset.card_univ, Fintype.card_fin, zero_add]
    · simp at h'

theorem Inv.openStream (i : Fin n) : (e.openStream i).Inv := by
  unfold Exchange.openStream ExchangeSource.openStream
  split_ifs with hinited
  · by_cases hidle : (e.sources i).reader = .idle
    · have hsrc := h.source i
      have hserver := hsrc.not_requested hidle
      have hsick : (e.sources i).Sick → ¬ (e.sources i).sender.Healthy := by
        rintro (h' | h')
        · exact h'
        · rw [hserver] at h'
          exact absurd h'.1 (by decide)
      refine ⟨?_, fun _ => ?_, fun h' => ?_, fun hmeet => ?_, h.error_reported, fun heof => ?_⟩
      · refine modify_forall (P := fun j s => s.Inv (e.got j) (e.meetError = true)) ?_ fun j _ => h.source j
        rw [if_pos hidle]
        refine ⟨hsrc.flow, hsrc.finished, hsrc.connected, hsrc.error_pending, fun h' => ?_, fun h' => ?_,
          fun h' => ?_, fun h' => .inl (hsick (hsrc.error_why h')), fun _ _ => ?_, fun h' => ?_⟩
        · cases h'
        · rcases h' with h' | h' <;> cases h'
        · rcases hsrc.unbroken h' with h'' | h'' <;> rw [hidle] at h'' <;> cases h''
        · exact hsrc.not_connected (by rw [hserver]; decide) (by rw [hserver]; decide)
        · cases h'
      · rw [live_modify (by simp [hidle])]
        exact h.live_eq hinited
      · rw [show e.inited = false from h'] at hinited
        cases hinited
      · refine error_why_modify ?_ ?_ (h.error_why hmeet)
        · rw [if_pos hidle]
          exact id
        · rw [if_pos hidle]
          exact fun h' => .inl (hsick h')
      · have := ((h.eof_reported heof).2 i).1
        rw [hidle] at this
        cases this
    · have hkeep : (e.sources i).Keeps (if (e.sources i).reader = .idle then
          { e.sources i with reader := .reading, server := .findTask } else e.sources i) := by
        rw [if_neg hidle]
        exact Keeps.refl _
      exact h.modify (f := fun s => if s.reader = .idle then
        { s with reader := .reading, server := .findTask } else s) hkeep
  · exact h

/-- A thread meets an error that has a cause. -/
theorem Inv.catchError {msg : String} (hended : (e.sources i).reader ≠ .ended) (hinited : e.inited = true)
    (hinv : (ExchangeSource.Inv { f (e.sources i) with reader := .leaving } (e.got i) True))
    (hcause : (f (e.sources i)).broken = true ∨ (f (e.sources i)).Sick) : (e.catchError i msg f).Inv := by
  refine ⟨?_, fun _ => ?_, fun h' => ?_, fun _ => ⟨i, ?_⟩, fun _ _ => rfl, fun heof => ?_⟩
  · show ∀ j, ((e.modify i fun s => { f s with reader := .leaving }).sources j).Inv (e.got j) (true = true)
    refine modify_forall (P := fun j s => s.Inv (e.got j) (true = true)) ?_ fun j _ => ?_
    · exact hinv.mono fun _ => rfl
    · exact (h.source j).mono fun _ => rfl
  · show e.liveConnections = (live (e.modify i fun s => { f s with reader := .leaving }).sources).card
    rw [live_modify (iff_of_false (by simp) hended)]
    exact h.live_eq hinited
  · rw [show e.inited = false from h'] at hinited
    cases hinited
  · show ((e.modify i fun s => { f s with reader := .leaving }).sources i).broken = true ∨
      ((e.modify i fun s => { f s with reader := .leaving }).sources i).Sick
    rw [modify_self]
    exact hcause
  · exact absurd ((h.eof_reported heof).2 i).1 hended

theorem Inv.openFails (i : Fin n) (msg : String) : (e.openFails i msg).Inv := by
  unfold Exchange.openFails
  split_ifs with h₀
  · obtain ⟨hinited, hidle⟩ := h₀
    have hsrc := (h.source i).mono fun _ => trivial
    refine h.catchError (by simp [hidle]) hinited ?_ (.inl rfl)
    exact ⟨hsrc.flow, hsrc.finished, hsrc.connected, hsrc.error_pending, hsrc.closed_why, fun _ => .inl trivial,
      fun _ => .inl rfl, hsrc.error_why, hsrc.not_connected, fun h' => by cases h'⟩
  · exact h

theorem Inv.inited_of_reader (hreader : (e.sources i).reader ≠ .idle) :
    e.inited = true := by
  by_contra hnot
  exact hreader ((h.not_inited (Bool.eq_false_iff.2 hnot)).2 i)

theorem Inv.readError {msg msg' : String} {rest : List (MPPDataPacket Data)}
    (hreading : (e.sources i).reader = .reading) (hstream : (e.sources i).stream = .error msg :: rest) :
    (e.catchError i msg' fun s => { s with stream := rest }).Inv := by
  have hsrc := (h.source i).mono fun _ => trivial
  have herror : HasError (e.sources i).stream := by
    rw [hstream]
    exact ⟨_, mem_cons_self, rfl⟩
  have hmono : HasError rest → HasError (e.sources i).stream := fun _ => herror
  have hinited := h.inited_of_reader (i := i) (by simp [hreading])
  refine h.catchError (by simp [hreading]) hinited ?_ (.inr (hsrc.error_why herror))
  refine ⟨fun h' => ?_, hsrc.finished, hsrc.connected, fun _ => .inr trivial, fun _ => .inr (.inr trivial),
    fun _ => .inl trivial, fun _ => .inl rfl, fun h' => hsrc.error_why (hmono h'), hsrc.not_connected,
    fun h' => by cases h'⟩
  have hflow := hsrc.flow h'
  rw [hstream] at hflow
  exact hflow

end

variable {d : Data}

theorem got_read {i j : Fin n} :
    got { e.modify i f with buffer := e.buffer ++ [(i, d)] } j = e.got j ++ if i = j then [d] else [] := by
  show e.returned j ++ _ = e.returned j ++ _ ++ _
  rw [append_assoc]
  congr 1
  show (e.buffer ++ [(i, d)]).filterMap _ = _
  rw [filterMap_append]
  congr 1
  by_cases hij : i = j
  · simp [hij]
  · simp [hij]

theorem Inv.readData (h : e.Inv) {rest : List (MPPDataPacket Data)}
    (hreading : (e.sources i).reader = .reading) (hstream : (e.sources i).stream = .data d :: rest) :
    Inv { e.modify i (fun s => { s with stream := rest }) with buffer := e.buffer ++ [(i, d)] } := by
  have hsrc := h.source i
  have hiff : HasError (e.sources i).stream ↔ HasError rest := by
    rw [hstream, ← singleton_append, hasError_append_iff, or_iff_right (not_hasError_data d)]
  have hnot : ¬ (e.sources i).Left := by
    rintro (h' | h') <;> rw [hreading] at h' <;> cases h'
  have hinited := h.inited_of_reader (i := i) (by simp [hreading])
  refine ⟨?_, fun _ => ?_, fun h' => ?_, fun hmeet => ?_, h.error_reported, fun heof => ?_⟩
  · intro j
    rw [got_read]
    show ((e.modify i fun s => { s with stream := rest }).sources j).Inv _ (e.meetError = true)
    refine modify_forall (P := fun j s => s.Inv (e.got j ++ if i = j then [d] else []) (e.meetError = true))
      ?_ (fun j hj => ?_) j
    · rw [if_pos rfl]
      refine ⟨fun h' => ?_, hsrc.finished, hsrc.connected, fun h' => (hsrc.error_pending h').imp_left hiff.1,
        fun h' => (hsrc.closed_why h').imp_right (Or.imp_left hiff.1), fun h' => absurd h' hnot, hsrc.unbroken,
        fun h' => hsrc.error_why (hiff.2 h'), hsrc.not_connected, hsrc.not_requested⟩
      have hflow := hsrc.flow h'
      rw [hstream] at hflow
      rw [← hflow, append_assoc]
      rfl
    · rw [if_neg (Ne.symm hj), append_nil]
      exact h.source j
  · rw [live_modify Iff.rfl]
    exact h.live_eq hinited
  · rw [show e.inited = false from h'] at hinited
    cases hinited
  · exact error_why_modify (f := fun s => { s with stream := rest }) id id (h.error_why hmeet)
  · have := ((h.eof_reported heof).2 i).1
    rw [hreading] at this
    cases this

theorem Inv.read (h : e.Inv) (i : Fin n) : (e.read i).Inv := by
  unfold Exchange.read
  split_ifs with hreading
  · cases hstream : (e.sources i).stream with
    | nil => exact h
    | cons p rest =>
      cases p with
      | error msg => exact h.readError hreading hstream
      | data d => exact h.readData hreading hstream
  · exact h

theorem Inv.leave (h : e.Inv) (i : Fin n) : (e.leave i).Inv := by
  unfold Exchange.leave
  split_ifs with hleaving
  · have hsrc := h.source i
    have hinited := h.inited_of_reader (i := i) (by simp [hleaving])
    have hleft : (e.sources i).Left := .inl hleaving
    refine ⟨?_, fun _ => ?_, fun h' => ?_, fun hmeet => ?_, h.error_reported, fun heof => ?_⟩
    · show ∀ j, ((e.modify i fun s => { s with reader := .ended }).sources j).Inv (e.got j) (e.meetError = true)
      refine modify_forall (P := fun j s => s.Inv (e.got j) (e.meetError = true)) ?_ fun j _ => h.source j
      refine ⟨hsrc.flow, hsrc.finished, hsrc.connected, hsrc.error_pending, hsrc.closed_why, fun _ => ?_,
        fun _ => .inr rfl, hsrc.error_why, hsrc.not_connected, fun h' => by cases h'⟩
      exact (hsrc.left_why hleft).imp_right fun h' => ⟨h'.succeeded, h'.closed, h'.empty⟩
    · have herase : Exchange.live (e.modify i fun s => { s with reader := .ended }).sources =
          (Exchange.live e.sources).erase i := by
        ext j
        simp only [Exchange.live, Finset.mem_filter, Finset.mem_univ, true_and, Finset.mem_erase]
        by_cases hj : j = i
        · subst hj
          simp
        · rw [modify_of_ne hj]
          simp [hj]
      have hmem : i ∈ Exchange.live e.sources := by simp [Exchange.live, hleaving]
      have hcard := Finset.card_erase_add_one hmem
      show e.liveConnections - 1 = (Exchange.live (e.modify i fun s => { s with reader := .ended }).sources).card
      rw [herase, h.live_eq hinited]
      omega
    · rw [show e.inited = false from h'] at hinited
      cases hinited
    · exact error_why_modify (f := fun s => { s with reader := .ended }) id id (h.error_why hmeet)
    · have := ((h.eof_reported heof).2 i).1
      rw [hleaving] at this
      cases this
  · exact h

/-! ## Results -/

theorem returned_append {r : NextResult n Data} (i : Fin n) :
    returned { e with reported := e.reported ++ [r] } i =
      e.returned i ++ match r with
        | .packet j d => if j = i then [d] else []
        | .eof | .error _ => [] := by
  unfold returned
  rw [filterMap_append]
  congr 1
  cases r with
  | packet j d => by_cases hj : j = i <;> simp [hj]
  | eof | error msg => rfl

theorem got_report {r : NextResult n Data} (hr : ∀ j d, r ≠ .packet j d) (i : Fin n) :
    got { e with reported := e.reported ++ [r] } i = e.got i := by
  unfold got
  rw [returned_append]
  cases r with
  | packet j d => exact absurd rfl (hr j d)
  | eof | error msg => rw [append_nil]; rfl

theorem got_pop {rest : List (Fin n × Data)} (hbuffer : e.buffer = (i, d) :: rest) (j : Fin n) :
    got { e with buffer := rest, reported := e.reported ++ [.packet i d] } j = e.got j := by
  have hreturned := returned_append (e := { e with buffer := rest }) (r := .packet i d) j
  unfold got
  rw [hreturned]
  simp only [buffered, hbuffer, filterMap_cons, append_assoc]
  congr 1
  by_cases hij : i = j <;> simp [hij]

theorem Inv.reportError (h : e.Inv) (hmeet : e.meetError = true) :
    Inv { e with reported := e.reported ++ [.error e.err] } := by
  refine ⟨fun i => ?_, h.live_eq, h.not_inited, h.error_why, fun _ _ => hmeet, fun heof => ?_⟩
  · rw [got_report (by simp)]
    exact h.source i
  · exact h.eof_reported (by simpa using heof)

theorem Inv.reportPacket (h : e.Inv) {rest : List (Fin n × Data)} (hbuffer : e.buffer = (i, d) :: rest) :
    Inv { e with buffer := rest, reported := e.reported ++ [.packet i d] } := by
  refine ⟨fun j => ?_, h.live_eq, h.not_inited, h.error_why, fun msg hmsg => ?_, fun heof => ?_⟩
  · rw [got_pop hbuffer]
    exact h.source j
  · exact h.error_reported msg (by simpa using hmsg)
  · have hempty := (h.eof_reported (by simpa using heof)).1
    rw [hbuffer] at hempty
    cases hempty

/-- Nobody is left to read, and nobody has met an error. -/
theorem Inv.reportEof (h : e.Inv) (hinited : e.inited = true) (hmeet : e.meetError ≠ true)
    (hbuffer : e.buffer = []) (hlive : e.liveConnections = 0) :
    Inv { e with reported := e.reported ++ [.eof] } := by
  have hcard := h.live_eq hinited
  rw [hlive] at hcard
  have hempty : Exchange.live e.sources = ∅ := Finset.card_eq_zero.1 (by exact_mod_cast hcard.symm)
  refine ⟨fun i => ?_, h.live_eq, h.not_inited, h.error_why, fun msg hmsg => ?_, fun _ => ⟨hbuffer, fun i => ?_⟩⟩
  · rw [got_report (by simp)]
    exact h.source i
  · exact h.error_reported msg (by simpa using hmsg)
  · have hended : (e.sources i).reader = .ended := by
      by_contra hnot
      have hmem : i ∈ Exchange.live e.sources := by simp [Exchange.live, hnot]
      rw [hempty] at hmem
      exact absurd hmem (Finset.notMem_empty i)
    exact ⟨hended, ((h.source i).left_why (.inr hended)).resolve_left hmeet⟩

theorem Inv.nextResult (h : e.Inv) : e.nextResult.Inv := by
  by_cases hinited : e.inited = true
  · by_cases hmeet : e.meetError = true
    · have heq : e.nextResult = { e with reported := e.reported ++ [.error e.err] } := by
        simp [Exchange.nextResult, hinited, hmeet]
      rw [heq]
      exact h.reportError hmeet
    · rcases hbuffer : e.buffer with _ | ⟨⟨i, d⟩, rest⟩
      · by_cases hlive : e.liveConnections = 0
        · have heq : e.nextResult = { e with reported := e.reported ++ [.eof] } := by
            simp [Exchange.nextResult, hinited, hmeet, hbuffer, hlive]
          rw [heq]
          exact h.reportEof hinited hmeet hbuffer hlive
        · have heq : e.nextResult = e := by simp [Exchange.nextResult, hinited, hmeet, hbuffer, hlive]
          rw [heq]
          exact h
      · have heq : e.nextResult = { e with buffer := rest, reported := e.reported ++ [.packet i d] } := by
          simp [Exchange.nextResult, hinited, hmeet, hbuffer]
        rw [heq]
        exact h.reportPacket hbuffer
  · have heq : e.nextResult = e := by simp [Exchange.nextResult, hinited]
    rw [heq]
    exact h

/-! ## Runs -/

/-- The condition on a step: the steps of the receiver are always safe. -/
def StepSafe (e : Exchange n Data) : ExchangeAction n Data → Prop
  | .source i action => action.Safe (e.sources i)
  | _ => True

/-- Every action of the run is safe. -/
def RunSafe : Exchange n Data → List (ExchangeAction n Data) → Prop
  | _, [] => True
  | e, action :: actions => e.StepSafe action ∧ RunSafe (e.step action) actions

theorem Inv.step (h : e.Inv) {action : ExchangeAction n Data} (hsafe : e.StepSafe action) :
    (e.step action).Inv := by
  cases action with
  | source i action => exact h.modify (f := (·.step action)) (step_keeps hsafe)
  | init => exact h.init
  | openStream i => exact h.openStream i
  | openFails i msg => exact h.openFails i msg
  | read i => exact h.read i
  | leave i => exact h.leave i
  | nextResult => exact h.nextResult

theorem Inv.run (h : e.Inv) {actions : List (ExchangeAction n Data)} (hsafe : e.RunSafe actions) :
    (e.run actions).Inv := by
  induction actions generalizing e with
  | nil => exact h
  | cons action actions ih => exact ih (h.step hsafe.1) hsafe.2

theorem Inv.wholeStream (h : e.Inv) : e.WholeStream := by
  intro heof i
  obtain ⟨hbuffer, hall⟩ := h.eof_reported heof
  obtain ⟨-, hsettled⟩ := hall i
  have hflow := (h.source i).flow (by simp [hsettled.succeeded, SenderPhase.Healthy])
  simp only [got, buffered, hbuffer, hsettled.empty, dataOf, filterMap_nil, append_nil] at hflow
  exact ⟨hflow, hsettled.succeeded⟩

theorem Inv.noFalseError (h : e.Inv) : e.NoFalseError := by
  intro hall msg hmsg
  obtain ⟨i, hbroken | hsick | ⟨-, hconnected⟩⟩ := h.error_why (h.error_reported msg hmsg)
  · rw [(hall i).2] at hbroken
    cases hbroken
  · exact hsick (by simp [(hall i).1, SenderPhase.Healthy])
  · rw [(h.source i).connected (hall i).1] at hconnected
    cases hconnected

/-- **Exchange.** In every state of a safe run, a reported end is the end of the whole stream, and a reported
error has a cause. -/
theorem safe_exchange_is_whole (ids : Fin n → MPPTaskId) (receiver : MPPTaskId) (timeout : Fin n → Nat)
    (actions : List (ExchangeAction n Data))
    (hsafe : (start ids receiver timeout : Exchange n Data).RunSafe actions) :
    ((start ids receiver timeout : Exchange n Data).run actions).WholeStream ∧
      ((start ids receiver timeout : Exchange n Data).run actions).NoFalseError := by
  have hinv := (inv_start ids receiver timeout).run hsafe
  exact ⟨hinv.wholeStream, hinv.noFalseError⟩

/-! ## Cases -/

/-- The sender prepares its task and the receiver connects. -/
def connectOne : List (ExchangeAction 1 Nat) :=
  [.source 0 .registerTask, .source 0 .registerTunnel, .source 0 .startRun, .init, .openStream 0,
    .source 0 .findTask, .source 0 .findTunnel, .source 0 .connect]

/-- An exchange with one sender -/
def oneSource (timeout : Nat) : Exchange 1 Nat := start (fun _ => ⟨1, 1⟩) ⟨1, 2⟩ fun _ => timeout

theorem one_packet_arrives :
    ((oneSource 3).run (connectOne ++ [.source 0 (.write 5), .source 0 .finishWrite, .source 0 .endWait, .read 0,
        .source 0 .readFalse, .leave 0, .nextResult, .nextResult])).reported = [.packet 0 5, .eof] ∧
      ((oneSource 3).run (connectOne ++ [.source 0 (.write 5), .source 0 .finishWrite, .source 0 .endWait,
        .read 0, .source 0 .readFalse, .leave 0, .nextResult, .nextResult])).WholeStream := by
  refine ⟨by decide, (safe_exchange_is_whole _ _ _ _ ?_).1⟩
  simp only [connectOne, cons_append, nil_append, RunSafe, StepSafe, SourceAction.Safe, true_and]
  decide

/-- Without a timeout a packet is lost; after a broken connection the end is reported while the sender runs; a
sender without packets is gone before it is asked for. -/
theorem stream_lost_or_refused :
    ¬ ((oneSource 0).run (connectOne ++ [.source 0 (.write 5), .source 0 .finishWrite, .source 0 .endWait,
        .source 0 .readFalse, .leave 0, .nextResult])).WholeStream ∧
    ¬ ((oneSource 3).run (connectOne ++ [.source 0 (.write 5), .source 0 .breakConnection,
        .source 0 .readFalse, .leave 0, .nextResult])).WholeStream ∧
    ¬ ((oneSource 3).run [.source 0 .registerTask, .source 0 .registerTunnel, .source 0 .startRun,
        .source 0 .finishWrite, .source 0 .unregisterTask, .init, .openStream 0, .source 0 .taskMissing,
        .read 0, .nextResult]).NoFalseError := by
  refine ⟨fun h => ?_, fun h => ?_, fun h => ?_⟩
  · exact absurd (h (by decide) 0).1 (by decide)
  · exact absurd (h (by decide) 0).2 (by decide)
  · exact h (by decide) _ (mem_singleton_self _)

end Exchange

end TiFlash.Flash
