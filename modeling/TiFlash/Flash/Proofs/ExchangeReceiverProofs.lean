import TiFlash.Flash.ExchangeReceiver

/-!
# What the steps of one source keep

What a source has handed over and what is in its stream are together what was passed to the tunnel. A thread
that leaves without an error has read a stream closed after the sender had finished. Every error packet has
a cause: the sender failed, or the server gave up.
-/

namespace TiFlash.Flash

open List

variable {Data : Type}

/-! ## Streams -/

variable (packets : List (MPPDataPacket Data))

def dataOf : List Data :=
  packets.filterMap fun
    | .data d => some d
    | .error _ => none

def HasError : Prop := ∃ p ∈ packets, p.hasError = true

theorem dataOf_append (ps qs : List (MPPDataPacket Data)) : dataOf (ps ++ qs) = dataOf ps ++ dataOf qs :=
  filterMap_append

theorem hasError_append_iff {ps qs : List (MPPDataPacket Data)} :
    HasError (ps ++ qs) ↔ HasError ps ∨ HasError qs := by
  constructor
  · rintro ⟨p, hp, herror⟩
    exact (mem_append.1 hp).imp (fun h => ⟨p, h, herror⟩) (fun h => ⟨p, h, herror⟩)
  · rintro (⟨p, hp, herror⟩ | ⟨p, hp, herror⟩)
    · exact ⟨p, mem_append_left _ hp, herror⟩
    · exact ⟨p, mem_append_right _ hp, herror⟩

theorem hasError_singleton (msg : String) : HasError [(.error msg : MPPDataPacket Data)] :=
  ⟨_, mem_singleton_self _, rfl⟩

theorem not_hasError_data (d : Data) : ¬ HasError [MPPDataPacket.data d] := by
  rintro ⟨p, hp, herror⟩
  rw [mem_singleton.1 hp] at herror
  cases herror

theorem not_hasError_nil : ¬ HasError ([] : List (MPPDataPacket Data)) := by
  rintro ⟨p, hp, -⟩
  exact absurd hp not_mem_nil

/-! ## The invariant of a source -/

def SenderPhase.Healthy : SenderPhase → Prop
  | .idle | .preparing | .prepared | .running | .succeeded => True
  | .failing | .errorWritten | .failed | .aborted | .crashed => False

namespace ExchangeSource

variable {s : ExchangeSource Data} {got : List Data} {meetError : Prop}

def Left (s : ExchangeSource Data) : Prop := s.reader = .leaving ∨ s.reader = .ended

/-- Why the source may have an error packet: the sender failed, or the server gave up. -/
def Sick (s : ExchangeSource Data) : Prop :=
  ¬ s.sender.Healthy ∨ s.server = .closed ∧ s.tunnel.connected = false

/-- The sender has finished without an error and the stream is read to its end. -/
structure Settled (s : ExchangeSource Data) : Prop where
  succeeded : s.sender = .succeeded
  closed : s.server = .closed
  empty : s.stream = []

/-- `got` has been read from the source; `meetError` is the flag of the receiver. -/
structure Inv (s : ExchangeSource Data) (got : List Data) (meetError : Prop) : Prop where
  flow : s.sender.Healthy → got ++ dataOf s.stream = s.passed
  finished : s.tunnel.finished = true → s.sender = .succeeded ∨ s.sender = .failed
  connected : s.sender = .succeeded → s.tunnel.connected = true
  error_pending : s.sender = .errorWritten ∨ s.sender = .failed → HasError s.stream ∨ meetError
  closed_why : s.server = .closed → s.tunnel.finished = true ∨ HasError s.stream ∨ meetError
  left_why : s.Left → meetError ∨ s.Settled
  unbroken : s.broken = true → s.Left
  error_why : HasError s.stream → s.Sick
  not_connected : s.server ≠ .waiting → s.server ≠ .closed → s.tunnel.connected = false
  not_requested : s.reader = .idle → s.server = .idle

/-- What a step of one source does to the others' view of it. -/
structure Keeps (s s' : ExchangeSource Data) : Prop where
  idle : s.reader = .idle → s'.reader = .idle
  ended_iff : s'.reader = .ended ↔ s.reader = .ended
  sick : s.Sick → s'.Sick
  broken : s.broken = true → s'.broken = true
  settled : s.Settled → s'.Settled ∧ s'.passed = s.passed
  inv : ∀ got meetError, s.Inv got meetError → s'.Inv got meetError

theorem Keeps.refl (s : ExchangeSource Data) : s.Keeps s :=
  ⟨id, Iff.rfl, id, id, fun h => ⟨h, rfl⟩, fun _ _ h => h⟩

variable {p : Prop}

theorem Inv.left_or (h : s.Inv got meetError) (hs : ¬ s.Settled) (hleft : s.Left) : meetError ∨ p :=
  .inl ((h.left_why hleft).resolve_right hs)

theorem Sick.or (hne : s.server ≠ .closed) (h : s.Sick) : ¬ s.sender.Healthy ∨ p :=
  .inl (h.resolve_right fun h' => hne h'.1)

theorem Inv.sick_or (h : s.Inv got meetError) (hne : s.server ≠ .closed) (herror : HasError s.stream) :
    ¬ s.sender.Healthy ∨ p :=
  (h.error_why herror).or hne

end ExchangeSource

/-- The action loses no packet. -/
def SourceAction.Safe (s : ExchangeSource Data) : SourceAction Data → Prop
  | .write _ => 0 < s.tunnel.timeout
  | .writeError _ => 0 < s.tunnel.timeout ∧ s.tunnel.connected = true
  | .crash => False
  | .finishWrite => s.tunnel.connected = true
  | .breakConnection => s.Left
  | _ => True

namespace ExchangeSource

variable {s : ExchangeSource Data}

/-! ## The sender -/

/-- The sender goes on to a phase before its end. -/
theorem Keeps.advance {phase : SenderPhase} {task tunnel : Bool} {passed : List Data}
    (hs : s.sender ≠ .succeeded ∧ s.sender ≠ .failed)
    (hp : phase ≠ .succeeded ∧ phase ≠ .failed ∧ phase ≠ .errorWritten)
    (hhealthy : phase.Healthy → s.sender.Healthy ∧ passed = s.passed) :
    s.Keeps { s with sender := phase, taskRegistered := task, tunnelRegistered := tunnel, passed := passed } := by
  have hsettled : ¬ s.Settled := fun h => hs.1 h.succeeded
  refine ⟨id, Iff.rfl, ?_, id, fun h => absurd h hsettled, fun got meetError h => ?_⟩
  · exact Or.imp_left fun hsick h' => hsick (hhealthy h').1
  · refine ⟨fun h' => ?_, fun h' => ?_, fun h' => absurd h' hp.1, ?_, h.closed_why,
      h.left_or hsettled, h.unbroken, ?_, h.not_connected, h.not_requested⟩
    · exact (h.flow (hhealthy h').1).trans (hhealthy h').2.symm
    · rcases h.finished h' with h'' | h''
      · exact absurd h'' hs.1
      · exact absurd h'' hs.2
    · rintro (h' | h')
      · exact absurd h' hp.2.2
      · exact absurd h' hp.2.1
    · intro herror
      exact (h.error_why herror).imp_left fun hsick h' => hsick (hhealthy h').1

theorem registerTask_keeps : s.Keeps s.registerTask := by
  unfold registerTask
  split_ifs with h
  · exact Keeps.advance (by simp [h]) (by simp) fun _ => ⟨by simp [h, SenderPhase.Healthy], rfl⟩
  · exact Keeps.refl s

theorem registerTunnel_keeps : s.Keeps s.registerTunnel := by
  unfold registerTunnel
  split_ifs with h
  · exact Keeps.advance (by simp [h]) (by simp) fun _ => ⟨by simp [h, SenderPhase.Healthy], rfl⟩
  · exact Keeps.refl s

theorem abort_keeps : s.Keeps s.abort := by
  unfold abort
  split_ifs with h
  · refine Keeps.advance ?_ (by simp) fun h' => absurd h' (by simp [SenderPhase.Healthy])
    rcases h with h | h <;> simp [h]
  · exact Keeps.refl s

theorem startRun_keeps : s.Keeps s.startRun := by
  unfold startRun
  split_ifs with h
  · exact Keeps.advance (by simp [h]) (by simp) fun _ => ⟨by simp [h, SenderPhase.Healthy], rfl⟩
  · exact Keeps.refl s

theorem fail_keeps : s.Keeps s.fail := by
  unfold fail
  split_ifs with h
  · exact Keeps.advance (by simp [h]) (by simp) fun h' => absurd h' (by simp [SenderPhase.Healthy])
  · exact Keeps.refl s

/-- A write that ends has put the packet into the stream, if the wait has a bound. -/
theorem write_eq_ok (hpos : 0 < s.tunnel.timeout) {p : MPPDataPacket Data} {tunnel' : MPPTunnel Data}
    (h : s.tunnel.write p = .ok tunnel') :
    tunnel' = { s.tunnel with sent := s.tunnel.sent ++ [p] } ∧ s.written tunnel' = [p] := by
  unfold MPPTunnel.write at h
  rw [if_pos hpos] at h
  split_ifs at h
  cases h
  exact ⟨rfl, drop_left⟩

theorem write_keeps (d : Data) (hpos : 0 < s.tunnel.timeout) : s.Keeps (s.write d) := by
  unfold write
  split_ifs with hrunning
  · have hne : s.sender ≠ .succeeded ∧ s.sender ≠ .failed := by simp [hrunning]
    cases hwrite : s.tunnel.write (.data d) with
    | waits => exact Keeps.refl s
    | isTimeout msg =>
      exact Keeps.advance hne (by simp) fun h' => absurd h' (by simp [SenderPhase.Healthy])
    | ok tunnel' =>
      obtain ⟨rfl, hwritten⟩ := write_eq_ok hpos hwrite
      simp only [hwritten]
      have hsettled : ¬ s.Settled := fun h => hne.1 h.succeeded
      refine ⟨id, Iff.rfl, id, id, fun h => absurd h hsettled, fun got meetError h => ?_⟩
      have hiff : HasError (s.stream ++ [.data d]) ↔ HasError s.stream := by
        rw [hasError_append_iff, or_iff_left (not_hasError_data d)]
      refine ⟨fun h' => ?_, h.finished, h.connected, ?_, ?_, h.left_or hsettled,
        h.unbroken, ?_, h.not_connected, h.not_requested⟩
      · rw [dataOf_append, ← append_assoc, h.flow h']
        rfl
      · rintro (h' | h') <;> simp [hrunning] at h'
      · intro hclosed
        exact (h.closed_why hclosed).imp_right (Or.imp_left hiff.2)
      · intro herror
        exact h.error_why (hiff.1 herror)
  · exact Keeps.refl s

theorem writeError_keeps (msg : String) (hpos : 0 < s.tunnel.timeout) (hconnected : s.tunnel.connected = true) :
    s.Keeps (s.writeError msg) := by
  unfold writeError
  split_ifs with hfailing
  · have hsettled : ¬ s.Settled := fun h => by simpa [hfailing] using h.succeeded
    have hwrite : s.tunnel.write (.error msg) = .ok { s.tunnel with sent := s.tunnel.sent ++ [.error msg] } := by
      simp [MPPTunnel.write, hpos, hconnected]
    obtain ⟨-, hwritten⟩ := write_eq_ok hpos hwrite
    simp only [hwrite, hwritten]
    refine ⟨id, Iff.rfl, fun _ => .inl id, id, fun h => absurd h hsettled, fun got meetError h => ?_⟩
    have herror : HasError (s.stream ++ [(.error msg : MPPDataPacket Data)]) :=
      hasError_append_iff.2 (.inr (hasError_singleton msg))
    refine ⟨fun h' => h'.elim, fun h' => ?_, fun h' => ?_, fun _ => .inl herror, fun _ => .inr (.inl herror),
      h.left_or hsettled, h.unbroken, fun _ => .inl id, h.not_connected,
      h.not_requested⟩
    · rcases h.finished h' with h'' | h'' <;> simp [hfailing] at h''
    · simp at h'
  · exact Keeps.refl s

theorem errorDone_keeps : s.Keeps s.errorDone := by
  unfold errorDone writeDone MPPTunnel.writeDone
  split_ifs with hsender hfinished
  · exact Keeps.refl s
  · have hsettled : ¬ s.Settled := fun h => by simpa [hsender] using h.succeeded
    refine ⟨id, Iff.rfl, fun _ => .inl id, id, fun h => absurd h hsettled, fun got meetError h => ?_⟩
    have hpending := h.error_pending (.inl hsender)
    exact ⟨fun h' => h'.elim, fun _ => .inr rfl, fun h' => by simp at h', fun _ => hpending, fun _ => .inl rfl,
      h.left_or hsettled, h.unbroken, fun _ => .inl id, h.not_connected,
      h.not_requested⟩
  · exact Keeps.refl s

theorem finishWrite_keeps (hconnected : s.tunnel.connected = true) : s.Keeps s.finishWrite := by
  unfold finishWrite writeDone MPPTunnel.writeDone
  split_ifs with hrunning hfinished
  · exact Keeps.refl s
  · have hsettled : ¬ s.Settled := fun h => by simpa [hrunning] using h.succeeded
    have hhealthy : s.sender.Healthy := by simp [hrunning, SenderPhase.Healthy]
    refine ⟨id, Iff.rfl, ?_, id, fun h => absurd h hsettled, fun got meetError h => ?_⟩
    · exact Or.imp_left fun h => absurd hhealthy h
    · refine ⟨fun _ => h.flow hhealthy, fun _ => .inl rfl, fun _ => hconnected, ?_, fun _ => .inl rfl,
        h.left_or hsettled, h.unbroken, ?_, h.not_connected, h.not_requested⟩
      · rintro (h' | h') <;> simp at h'
      · intro herror
        exact (h.error_why herror).imp_left fun h' => absurd hhealthy h'
  · exact Keeps.refl s

theorem unregisterTask_keeps : s.Keeps s.unregisterTask := by
  unfold unregisterTask
  split_ifs with h
  · exact ⟨id, Iff.rfl, id, id, fun h => ⟨⟨h.succeeded, h.closed, h.empty⟩, rfl⟩, fun _ _ h =>
      ⟨h.flow, h.finished, h.connected, h.error_pending, h.closed_why,
        fun hleft => (h.left_why hleft).imp_right fun h' => ⟨h'.succeeded, h'.closed, h'.empty⟩, h.unbroken,
        h.error_why, h.not_connected, h.not_requested⟩⟩
  · exact Keeps.refl s

/-! ## The server -/

theorem Keeps.lookUp {phase : ServerPhase} (hs : s.server ≠ .closed ∧ s.server ≠ .waiting ∧ s.server ≠ .idle)
    (hp : phase ≠ .closed) : s.Keeps { s with server := phase } := by
  have hsettled : ¬ s.Settled := fun h => hs.1 h.closed
  exact ⟨id, Iff.rfl, Sick.or hs.1, id, fun h => absurd h hsettled, fun got meetError h =>
    ⟨h.flow, h.finished, h.connected, h.error_pending, fun h' => absurd h' hp,
      h.left_or hsettled, h.unbroken, h.sick_or hs.1, fun _ _ => h.not_connected hs.2.1 hs.1,
      fun h' => absurd (h.not_requested h') hs.2.2⟩⟩

theorem findTask_keeps : s.Keeps s.findTask := by
  unfold findTask
  split_ifs with h
  · exact Keeps.lookUp (by simp [h.1]) (by simp)
  · exact Keeps.refl s

theorem findTunnel_keeps : s.Keeps s.findTunnel := by
  unfold findTunnel
  split_ifs with h
  · exact Keeps.lookUp (by simp [h.1]) (by simp)
  · exact Keeps.refl s

theorem refuse_keeps (msg : String) (hs : s.server ≠ .closed ∧ s.server ≠ .waiting ∧ s.server ≠ .idle) :
    s.Keeps (s.refuse msg) := by
  have hsettled : ¬ s.Settled := fun h => hs.1 h.closed
  refine ⟨id, Iff.rfl, Sick.or hs.1, id, fun h => absurd h hsettled, fun got meetError h => ?_⟩
  have herror : HasError (s.stream ++ [(.error msg : MPPDataPacket Data)]) :=
    hasError_append_iff.2 (.inr (hasError_singleton msg))
  refine ⟨fun h' => ?_, h.finished, h.connected, fun _ => .inl herror, fun _ => .inr (.inl herror),
    h.left_or hsettled, h.unbroken, fun _ => .inr ⟨rfl, h.not_connected hs.2.1 hs.1⟩, fun _ h' => absurd rfl h',
    fun h' => absurd (h.not_requested h') hs.2.2⟩
  show got ++ dataOf (s.stream ++ [.error msg]) = s.passed
  rw [dataOf_append, ← h.flow h']
  simp [dataOf]

theorem taskMissing_keeps : s.Keeps s.taskMissing := by
  unfold taskMissing
  split_ifs with h
  · exact refuse_keeps _ (by simp [h.1])
  · exact Keeps.refl s

theorem tunnelMissing_keeps : s.Keeps s.tunnelMissing := by
  unfold tunnelMissing
  split_ifs with h
  · exact refuse_keeps _ (by simp [h.1])
  · exact Keeps.refl s

theorem connect_keeps : s.Keeps s.connect := by
  unfold connect MPPTunnel.connect
  split_ifs with hserver hconnected
  · exact Keeps.refl s
  · have hne : s.server ≠ .closed := by simp [hserver]
    have hsettled : ¬ s.Settled := fun h => hne h.closed
    exact ⟨id, Iff.rfl, Sick.or hne, id, fun h => absurd h hsettled, fun got meetError h =>
      ⟨h.flow, h.finished, fun _ => rfl, h.error_pending, fun h' => by simp at h',
        h.left_or hsettled, h.unbroken, h.sick_or hne, fun h' => absurd rfl h',
        fun h' => by simpa [hserver] using h.not_requested h'⟩⟩
  · exact Keeps.refl s

theorem endWait_keeps : s.Keeps s.endWait := by
  unfold endWait
  split_ifs with h₀
  · obtain ⟨hserver, hfinished⟩ := h₀
    have hne : s.server ≠ .closed := by simp [hserver]
    have hsettled : ¬ s.Settled := fun h => hne h.closed
    exact ⟨id, Iff.rfl, Sick.or hne, id, fun h => absurd h hsettled, fun got meetError h =>
      ⟨h.flow, h.finished, h.connected, h.error_pending, fun _ => .inl hfinished,
        h.left_or hsettled, h.unbroken, h.sick_or hne, fun _ h' => absurd rfl h',
        fun h' => by simpa [hserver] using h.not_requested h'⟩⟩
  · exact Keeps.refl s

/-! ## The connection -/

theorem breakConnection_keeps (hleft : s.Left) : s.Keeps s.breakConnection :=
  ⟨id, Iff.rfl, id, fun _ => rfl, fun h => ⟨⟨h.succeeded, h.closed, h.empty⟩, rfl⟩, fun _ _ h =>
    ⟨h.flow, h.finished, h.connected, h.error_pending, h.closed_why,
      fun hleft => (h.left_why hleft).imp_right fun h' => ⟨h'.succeeded, h'.closed, h'.empty⟩,
      fun _ => hleft, h.error_why, h.not_connected, h.not_requested⟩⟩

theorem readFalse_keeps : s.Keeps s.readFalse := by
  unfold readFalse
  split_ifs with h₀
  · obtain ⟨hreading, hwhy⟩ := h₀
    refine ⟨fun h => ?_, by simp [hreading], id, id, fun h => ⟨⟨h.succeeded, h.closed, h.empty⟩, rfl⟩,
      fun got meetError h => ?_⟩
    · simp [hreading] at h
    · have hnot : ¬ s.Left := by
        rintro (h' | h') <;> simp [hreading] at h'
      have hdone : meetError ∨ s.Settled := by
        rcases hwhy with hbroken | ⟨hclosed, hempty⟩
        · exact absurd (h.unbroken hbroken) hnot
        · have hno : ¬ HasError s.stream := hempty ▸ not_hasError_nil
          rcases h.closed_why hclosed with hfinished | herror | herror
          · rcases h.finished hfinished with hsender | hsender
            · exact .inr ⟨hsender, hclosed, hempty⟩
            · exact (h.error_pending (.inr hsender)).elim (fun h' => absurd h' hno) .inl
          · exact absurd herror hno
          · exact .inl herror
      refine ⟨h.flow, h.finished, h.connected, h.error_pending, h.closed_why, fun _ => ?_, fun _ => .inl rfl,
        h.error_why, h.not_connected, fun h' => by simp at h'⟩
      exact hdone.imp_right fun h' => ⟨h'.succeeded, h'.closed, h'.empty⟩
  · exact Keeps.refl s

theorem step_keeps {action : SourceAction Data} (hsafe : action.Safe s) : s.Keeps (s.step action) := by
  cases action with
  | registerTask => exact registerTask_keeps
  | registerTunnel => exact registerTunnel_keeps
  | abort => exact abort_keeps
  | startRun => exact startRun_keeps
  | write d => exact write_keeps d hsafe
  | fail => exact fail_keeps
  | writeError msg => exact writeError_keeps msg hsafe.1 hsafe.2
  | crash => exact hsafe.elim
  | errorDone => exact errorDone_keeps
  | finishWrite => exact finishWrite_keeps hsafe
  | unregisterTask => exact unregisterTask_keeps
  | findTask => exact findTask_keeps
  | taskMissing => exact taskMissing_keeps
  | findTunnel => exact findTunnel_keeps
  | tunnelMissing => exact tunnelMissing_keeps
  | connect => exact connect_keeps
  | endWait => exact endWait_keeps
  | breakConnection => exact breakConnection_keeps hsafe
  | readFalse => exact readFalse_keeps

theorem Inv.mono {got : List Data} {meetError meetError' : Prop} (h : s.Inv got meetError)
    (himp : meetError → meetError') : s.Inv got meetError' :=
  ⟨h.flow, h.finished, h.connected, fun h' => (h.error_pending h').imp_right himp,
    fun h' => (h.closed_why h').imp_right (Or.imp_right himp), fun h' => (h.left_why h').imp_left himp,
    h.unbroken, h.error_why, h.not_connected, h.not_requested⟩

end ExchangeSource

end TiFlash.Flash
