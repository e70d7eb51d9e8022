import TiFlash.Flash.MPPTask
import TiFlash.Lib.ExceptBind

/-!
# When a failed task cleans up

While blocks are copied, all tunnels are open without an error. The error reaches all of them iff every
receiver is connected when its turn comes; otherwise the clean-up itself throws, or waits.
-/

namespace TiFlash.Flash

open TiFlash.Lib List Function Option EStateM

variable {Data : Type}

/-! ## Connections -/

namespace MPPTunnel

/-- The tunnel, up to whether the receiver is connected. -/
def strip (tunnel : MPPTunnel Data) : MPPTunnel Data := { tunnel with connected := true }

theorem arrive_eq (tunnel : MPPTunnel Data) : tunnel.arrive = tunnel.strip := by
  cases tunnel with
  | mk tunnelId timeout connected finished sent doneCalls => cases connected <;> rfl

/-- The tunnel `t'` is `t`, or `t` after its receiver has connected. -/
def Stays (t t' : Option (MPPTunnel Data)) : Prop := t' = t ∨ t' = t.map strip

theorem Stays.trans {t t' t'' : Option (MPPTunnel Data)} (h : Stays t t') (h' : Stays t' t'') : Stays t t'' := by
  rcases h with rfl | rfl
  · exact h'
  · rcases h' with rfl | rfl
    · exact .inr rfl
    · refine .inr ?_
      rw [Option.map_map]
      rfl

theorem Stays.get {t' : Option (MPPTunnel Data)} {tunnel : MPPTunnel Data} (h : Stays (some tunnel) t') :
    ∃ tunnel', t' = some tunnel' ∧ tunnel'.strip = tunnel.strip ∧
      (tunnel.connected = true → tunnel'.connected = true) := by
  rcases h with rfl | rfl
  · exact ⟨tunnel, rfl, rfl, id⟩
  · exact ⟨tunnel.strip, rfl, rfl, fun _ => rfl⟩

end MPPTunnel

open MPPTunnel (Stays)

namespace MPPWorld

variable {w : MPPWorld Data} {id : MPPTaskId} {tunnel : MPPTunnel Data}

def IsConnected (w : MPPWorld Data) (id : MPPTaskId) : Prop :=
  ∃ tunnel, w.tunnels id = some tunnel ∧ tunnel.connected = true

/-- Each receiver of the list is connected at the end of its wait. -/
def AllConnect : List MPPTaskId → MPPWorld Data → Prop
  | [], _ => True
  | id :: ids, w => w.arrive.IsConnected id ∧ AllConnect ids w.arrive

@[simp] theorem arrive_taskMap : w.arrive.taskMap = w.taskMap := by
  unfold arrive
  cases w.arrivals <;> rfl

@[simp] theorem arrive_receivers : w.arrive.receivers = w.receivers := by
  unfold arrive
  cases w.arrivals <;> rfl

theorem arrive_tunnels (w : MPPWorld Data) (id : MPPTaskId) : Stays (w.tunnels id) (w.arrive.tunnels id) := by
  unfold arrive
  cases w.arrivals with
  | nil => exact .inl rfl
  | cons ids rest =>
    by_cases hid : id ∈ ids
    · refine .inr ?_
      simp [hid, MPPTunnel.arrive_eq]
    · refine .inl ?_
      simp [hid, Option.map_id']

theorem isConnected_arrive_congr {w' : MPPWorld Data} (harrivals : w.arrivals = w'.arrivals)
    (h : w.tunnels id = w'.tunnels id) : w.arrive.tunnels id = w'.arrive.tunnels id := by
  unfold arrive
  rw [← harrivals]
  cases w.arrivals with
  | nil => exact h
  | cons ids rest => simp only [h]

theorem arrive_arrivals (w : MPPWorld Data) : w.arrive.arrivals = w.arrivals.tail := by
  unfold arrive
  cases h : w.arrivals with
  | nil => simp [h]
  | cons ids rest => rfl

theorem allConnect_congr {ids : List MPPTaskId} {w w' : MPPWorld Data} (harrivals : w.arrivals = w'.arrivals)
    (h : ∀ id ∈ ids, w.tunnels id = w'.tunnels id) : AllConnect ids w ↔ AllConnect ids w' := by
  induction ids generalizing w w' with
  | nil => exact Iff.rfl
  | cons id ids ih =>
    have hid := isConnected_arrive_congr harrivals (h id mem_cons_self)
    refine and_congr (by rw [IsConnected, IsConnected, hid]) (ih ?_ ?_)
    · rw [arrive_arrivals, arrive_arrivals, harrivals]
    · intro id' hid'
      exact isConnected_arrive_congr harrivals (h id' (mem_cons_of_mem id hid'))

@[simp] theorem setTunnel_self : (w.setTunnel id tunnel).tunnels id = some tunnel := update_self ..

theorem setTunnel_of_ne {id' : MPPTaskId} (h : id' ≠ id) :
    (w.setTunnel id tunnel).tunnels id' = w.tunnels id' :=
  update_of_ne h ..

end MPPWorld

/-! ## The loops over the tunnels -/

/-- The tunnel is not finished. -/
structure MPPTunnel.Open (timeout : Nat) (tunnel : MPPTunnel Data) : Prop where
  timeout_eq : tunnel.timeout = timeout
  not_finished : tunnel.finished = false
  not_done : tunnel.doneCalls = 0
  no_error : ∀ packet ∈ tunnel.sent, packet.hasError = false

variable {tunnel tunnel' : MPPTunnel Data}

theorem MPPTunnel.Open.of_strip {timeout : Nat} (h : tunnel.Open timeout)
    (hstrip : tunnel'.strip = tunnel.strip) : tunnel'.Open timeout := by
  obtain ⟨h₁, h₂, h₃, h₄⟩ := h
  simp only [strip, MPPTunnel.mk.injEq] at hstrip
  obtain ⟨-, ht, -, hf, hs, hd⟩ := hstrip
  exact ⟨ht.trans h₁, hf.trans h₂, hd.trans h₃, hs ▸ h₄⟩

namespace MPPWorld

/-- The tunnels that a loop has not reached yet. -/
structure Pending (timeout : Nat) (ids : List MPPTaskId) (w : MPPWorld Data) : Prop where
  nodup : ids.Nodup
  is_open : ∀ id ∈ ids, ∃ tunnel, w.tunnels id = some tunnel ∧ tunnel.Open timeout

variable {timeout : Nat} {id : MPPTaskId} {ids : List MPPTaskId} {w w' : MPPWorld Data}

theorem Pending.of_cons (h : Pending timeout (id :: ids) w) (htunnels : ∀ id' ≠ id, w'.tunnels id' = w.tunnels id') :
    Pending timeout ids w' := by
  obtain ⟨hnotMem, hnodup⟩ := nodup_cons.1 h.nodup
  refine ⟨hnodup, fun id' hid' => ?_⟩
  rw [htunnels id' (ne_of_mem_of_not_mem hid' hnotMem)]
  exact h.is_open id' (mem_cons_of_mem id hid')

theorem Pending.arrive (h : Pending timeout ids w) : Pending timeout ids w.arrive := by
  refine ⟨h.nodup, fun id hid => ?_⟩
  obtain ⟨tunnel, htunnel, hopen⟩ := h.is_open id hid
  have hstays := arrive_tunnels w id
  rw [htunnel] at hstays
  obtain ⟨tunnel', htunnel', hstrip, -⟩ := hstays.get
  exact ⟨tunnel', htunnel', hopen.of_strip hstrip⟩

/-- What a loop leaves alone: the manager, and the other tunnels up to connections. -/
structure Frame (ids : List MPPTaskId) (w w' : MPPWorld Data) : Prop where
  taskMap_eq : w'.taskMap = w.taskMap
  stays : ∀ id ∉ ids, Stays (w.tunnels id) (w'.tunnels id)

theorem Frame.get (h : Frame ids w w') (hid : id ∉ ids) {tunnel : MPPTunnel Data}
    (htunnel : w.tunnels id = some tunnel) :
    ∃ tunnel', w'.tunnels id = some tunnel' ∧ tunnel'.strip = tunnel.strip ∧
      (tunnel.connected = true → tunnel'.connected = true) := by
  have hstays := h.stays id hid
  rw [htunnel] at hstays
  exact hstays.get

theorem Frame.cons {w'' : MPPWorld Data} (h : Frame [id] w w') (h' : Frame ids w' w'') :
    Frame (id :: ids) w w'' := by
  refine ⟨h'.taskMap_eq.trans h.taskMap_eq, fun id' hid' => ?_⟩
  rw [mem_cons, not_or] at hid'
  exact (h.stays id' (mem_singleton.not.2 hid'.1)).trans (h'.stays id' hid'.2)

end MPPWorld

open MPPWorld

variable {timeout : Nat} {w : MPPWorld Data} {ids : List MPPTaskId}

/-- `finishWrite`: no tunnel is done yet, so that none throws. -/
theorem forM_writeDone_spec (h : Pending timeout ids w) :
    ∃ w', ids.forM writeDoneTunnel w = .ok () w' ∧ Frame ids w w' ∧
      ∀ id ∈ ids, ∃ tunnel, w'.tunnels id = some tunnel ∧ tunnel.doneCalls = 1 := by
  induction ids generalizing w with
  | nil => exact ⟨w, rfl, ⟨rfl, fun _ _ => .inl rfl⟩, by simp⟩
  | cons id ids ih =>
    obtain ⟨tunnel, htunnel, hopen⟩ := h.is_open id mem_cons_self
    obtain ⟨hnotMem, -⟩ := nodup_cons.1 h.nodup
    set tunnel' : MPPTunnel Data := { tunnel with finished := true, doneCalls := tunnel.doneCalls + 1 }
      with htunnel'
    have hstep : writeDoneTunnel id w = .ok () (w.setTunnel id tunnel') := by
      simp only [writeDoneTunnel, htunnel, MPPTunnel.writeDone, hopen.not_finished, Bool.false_eq_true,
        if_false]
      rfl
    obtain ⟨w', hrest, hframe, hdone⟩ := ih (h.of_cons fun id' hid' => setTunnel_of_ne hid')
    refine ⟨w', (bind_of_ok hstep).trans hrest, ?_, ?_⟩
    · have hfirst : Frame [id] w (w.setTunnel id tunnel') := by
        exact ⟨rfl, fun id' hid' => .inl (setTunnel_of_ne (ne_of_not_mem_cons hid'))⟩
      exact hfirst.cons hframe
    · intro id' hid'
      rcases mem_cons.1 hid' with rfl | hid'
      · obtain ⟨tunnel'', htunnel'', hstrip, -⟩ := hframe.get hnotMem setTunnel_self
        refine ⟨tunnel'', htunnel'', ?_⟩
        have hcalls := congrArg MPPTunnel.doneCalls hstrip
        simp only [MPPTunnel.strip, htunnel', hopen.not_done] at hcalls
        exact hcalls
      · exact hdone id' hid'

/-- A tunnel that is done, with an error if the write has a bound. -/
structure MPPTunnel.Failed (timeout : Nat) (tunnel : MPPTunnel Data) : Prop where
  done : tunnel.doneCalls = 1
  error_iff : (∃ packet ∈ tunnel.sent, packet.hasError = true) ↔ 0 < timeout

theorem MPPTunnel.Failed.of_strip (h : tunnel.Failed timeout)
    (hstrip : tunnel'.strip = tunnel.strip) : tunnel'.Failed timeout := by
  obtain ⟨h₁, h₂⟩ := h
  simp only [strip, MPPTunnel.mk.injEq] at hstrip
  obtain ⟨-, -, -, -, hs, hd⟩ := hstrip
  exact ⟨hd.trans h₁, hs ▸ h₂⟩

variable {id : MPPTaskId}

section

variable (htunnel : w.arrive.tunnels id = some tunnel) (hopen : tunnel.Open timeout)
include htunnel hopen

theorem writeErrTunnel_connected (hconnected : tunnel.connected = true) (e : String) :
    ∃ tunnel' : MPPTunnel Data, writeErrTunnel e id w = .ok () (w.arrive.setTunnel id tunnel') ∧
      tunnel'.Failed timeout ∧ tunnel'.connected = true := by
  have htimeout := hopen.timeout_eq
  have hupdate : ∀ t t' : MPPTunnel Data,
      (w.arrive.setTunnel id t).setTunnel id t' = w.arrive.setTunnel id t' := by
    intro t t'
    simp only [setTunnel, update_idem]
  by_cases hpos : timeout > 0
  · have hwrite : writeTunnel id (.error e) w =
        .ok () (w.arrive.setTunnel id { tunnel with sent := tunnel.sent ++ [.error e] }) := by
      simp [writeTunnel, htunnel, MPPTunnel.write, htimeout, hconnected, if_pos hpos]
    refine ⟨{ tunnel with
      sent := tunnel.sent ++ [.error e], finished := true, doneCalls := tunnel.doneCalls + 1 }, ?_, ?_,
      hconnected⟩
    · refine (bind_of_ok hwrite).trans ?_
      simp [writeDoneTunnel, setTunnel_self, MPPTunnel.writeDone, hopen.not_finished, hupdate]
    · refine ⟨by rw [hopen.not_done], iff_of_true ⟨.error e, ?_, rfl⟩ hpos⟩
      exact mem_append_right _ mem_cons_self
  · have hwrite : writeTunnel id (.error e) w = .ok () (w.arrive.setTunnel id tunnel) := by
      simp [writeTunnel, htunnel, MPPTunnel.write, htimeout, hconnected, if_neg hpos]
    refine ⟨{ tunnel with finished := true, doneCalls := tunnel.doneCalls + 1 }, ?_, ?_, hconnected⟩
    · refine (bind_of_ok hwrite).trans ?_
      simp [writeDoneTunnel, setTunnel_self, MPPTunnel.writeDone, hopen.not_finished, hupdate]
    · refine ⟨by rw [hopen.not_done], iff_of_false ?_ hpos⟩
      rintro ⟨packet, hmem, herror⟩
      rw [hopen.no_error packet hmem] at herror
      cases herror

/-- A receiver that does not connect in time makes the clean-up throw, or wait. -/
theorem writeErrTunnel_not_connected (hconnected : tunnel.connected = false) (e : String) :
    writeErrTunnel e id w =
      .error (if 0 < timeout then .exception (tunnel.tunnelId ++ " is timeout") else .waits) w.arrive := by
  have hwrite : writeTunnel id (.error e) w =
      .error (if 0 < timeout then .exception (tunnel.tunnelId ++ " is timeout") else .waits) w.arrive := by
    simp only [writeTunnel, htunnel, MPPTunnel.write, hopen.timeout_eq, hconnected, Bool.false_eq_true,
      if_false]
    by_cases hpos : timeout > 0
    · simp only [if_pos hpos]
    · simp only [if_neg hpos]
  show EStateM.bind (writeTunnel id (.error e)) _ w = _
  simp only [EStateM.bind, hwrite]

end

/-- How `writeErrToAllTunnel` ends -/
inductive ErrorWritten (timeout : Nat) (ids : List MPPTaskId) (w : MPPWorld Data) :
    EStateM.Result Interrupt (MPPWorld Data) Unit → Prop
  | delivered (w' : MPPWorld Data) (hconnect : AllConnect ids w) (hframe : Frame ids w w')
      (hfailed : ∀ id ∈ ids, ∃ tunnel, w'.tunnels id = some tunnel ∧ tunnel.Failed timeout ∧
        tunnel.connected = true) : ErrorWritten timeout ids w (.ok () w')
  | missing (msg : String) (w' : MPPWorld Data) (hconnect : ¬ AllConnect ids w) :
      ErrorWritten timeout ids w (.error (if 0 < timeout then .exception msg else .waits) w')

theorem forM_writeErr_spec (h : Pending timeout ids w) (e : String) :
    ErrorWritten timeout ids w (ids.forM (writeErrTunnel e) w) := by
  induction ids generalizing w with
  | nil => exact .delivered w trivial ⟨rfl, fun _ _ => .inl rfl⟩ (by simp)
  | cons id ids ih =>
    obtain ⟨tunnel, htunnel, hopen⟩ := h.arrive.is_open id mem_cons_self
    obtain ⟨hnotMem, -⟩ := nodup_cons.1 h.nodup
    show ErrorWritten timeout (id :: ids) w
      (EStateM.bind (writeErrTunnel e id) (fun _ => ids.forM (writeErrTunnel e)) w)
    cases hconnected : tunnel.connected with
    | false =>
      have hthrows := writeErrTunnel_not_connected htunnel hopen hconnected e
      simp only [EStateM.bind, hthrows]
      refine .missing _ _ ?_
      rintro ⟨⟨tunnel', htunnel', hconnected'⟩, -⟩
      rw [htunnel, some.injEq] at htunnel'
      rw [← htunnel', hconnected] at hconnected'
      cases hconnected'
    | true =>
      obtain ⟨tunnel', hstep, hfailed, hconnected'⟩ := writeErrTunnel_connected htunnel hopen hconnected e
      simp only [EStateM.bind, hstep]
      -- the rest depends on the other tunnels only
      have hsame : AllConnect ids (w.arrive.setTunnel id tunnel') ↔ AllConnect ids w.arrive :=
        allConnect_congr rfl fun id' hid' => setTunnel_of_ne (ne_of_mem_of_not_mem hid' hnotMem)
      have hfirst : w.arrive.IsConnected id := ⟨tunnel, htunnel, hconnected⟩
      have hpending : Pending timeout ids (w.arrive.setTunnel id tunnel') :=
        h.arrive.of_cons fun id' hid' => setTunnel_of_ne hid'
      have hframe₁ : Frame [id] w (w.arrive.setTunnel id tunnel') := by
        refine ⟨arrive_taskMap, fun id' hid' => ?_⟩
        rw [setTunnel_of_ne (ne_of_not_mem_cons hid')]
        exact arrive_tunnels w id'
      generalize hrest : ids.forM (writeErrTunnel e) (w.arrive.setTunnel id tunnel') = rest
      have hspec := ih hpending
      rw [hrest] at hspec
      cases hspec with
      | delivered w' hconnect hframe hdone =>
        refine .delivered w' ⟨hfirst, hsame.1 hconnect⟩ (hframe₁.cons hframe) ?_
        intro id' hid'
        rcases mem_cons.1 hid' with rfl | hid'
        · obtain ⟨tunnel'', htunnel'', hstrip, hstill⟩ := hframe.get hnotMem setTunnel_self
          exact ⟨tunnel'', htunnel'', hfailed.of_strip hstrip, hstill hconnected'⟩
        · exact hdone id' hid'
      | missing msg w' hconnect =>
        refine .missing msg w' ?_
        rintro ⟨-, hall⟩
        exact hconnect (hsame.2 hall)

/-! ## The copy -/

namespace Dispatch

variable (d : Dispatch Data)

/-- The state of a task that runs -/
structure Running (w : MPPWorld Data) : Prop where
  registered : w.taskMap d.request.taskMeta = some d.task
  pending : Pending d.request.timeout w.receivers w
  mem_receivers : ∀ id tunnel, w.tunnels id = some tunnel → id ∈ w.receivers

variable {d} {w : MPPWorld Data} {id : MPPTaskId} {tunnel : MPPTunnel Data}

theorem Running.mem_of_stays {t' : Option (MPPTunnel Data)}
    (h : d.Running w) (hstays : Stays (w.tunnels id) t') (htunnel : t' = some tunnel) : id ∈ w.receivers := by
  rcases hstays with heq | heq
  · exact h.mem_receivers id tunnel (heq ▸ htunnel)
  · rw [heq] at htunnel
    obtain ⟨tunnel', htunnel', -⟩ := map_eq_some_iff.1 htunnel
    exact h.mem_receivers id tunnel' htunnel'

theorem Running.arrive (h : d.Running w) : d.Running w.arrive := by
  refine ⟨?_, ?_, fun id tunnel htunnel => ?_⟩
  · rw [arrive_taskMap]
    exact h.registered
  · rw [arrive_receivers]
    exact h.pending.arrive
  · rw [arrive_receivers]
    exact h.mem_of_stays (arrive_tunnels w id) htunnel

theorem Running.setTunnel {tunnel' : MPPTunnel Data} (h : d.Running w)
    (htunnel : w.tunnels id = some tunnel) (hopen : tunnel'.Open d.request.timeout) :
    d.Running (w.setTunnel id tunnel') := by
  refine ⟨h.registered, ⟨h.pending.nodup, fun id' hid' => ?_⟩, fun id' t ht => ?_⟩
  · by_cases heq : id' = id
    · subst heq
      exact ⟨tunnel', setTunnel_self, hopen⟩
    · rw [setTunnel_of_ne heq]
      exact h.pending.is_open id' hid'
  · by_cases heq : id' = id
    · subst heq
      exact h.mem_receivers id' tunnel htunnel
    · rw [setTunnel_of_ne heq] at ht
      exact h.mem_receivers id' t ht

theorem Running.isOpen (h : d.Running w)
    (htunnel : w.tunnels id = some tunnel) : tunnel.Open d.request.timeout := by
  obtain ⟨tunnel', htunnel', hopen⟩ := h.pending.is_open id (h.mem_receivers id tunnel htunnel)
  rw [htunnel, some.injEq] at htunnel'
  exact htunnel' ▸ hopen

theorem writeTunnel_preserves (id : MPPTaskId) (x : Data) :
    EStateM.Preserves d.Running (writeTunnel id (.data x)) := by
  intro w h
  have harrive := h.arrive
  unfold writeTunnel
  cases htunnel : w.arrive.tunnels id with
  | none =>
    simp only [htunnel]
    exact harrive
  | some tunnel =>
    have hopen := harrive.isOpen htunnel
    simp only [htunnel]
    cases hwrite : tunnel.write (.data x) with
    | ok tunnel' =>
      refine harrive.setTunnel htunnel ?_
      unfold MPPTunnel.write at hwrite
      split_ifs at hwrite
      · cases hwrite
        exact ⟨hopen.timeout_eq, hopen.not_finished, hopen.not_done,
          forall_mem_append.2 ⟨hopen.no_error, forall_mem_singleton.2 rfl⟩⟩
      · cases hwrite
        exact hopen
    | isTimeout msg | waits => exact harrive

theorem throwIf_preserves {P : MPPWorld Data → Prop} (msg : Option String) :
    EStateM.Preserves P (throwIf msg) := by
  cases msg with
  | none => exact EStateM.Preserves.pure ()
  | some msg => exact EStateM.Preserves.throw _

theorem calls_preserves (cs : List (StreamCall Data)) : EStateM.Preserves d.Running (cs.forM call) := by
  refine EStateM.Preserves.forM (fun c => ?_) cs
  refine EStateM.Preserves.bind ?_ fun _ => throwIf_preserves _
  exact EStateM.Preserves.forM (fun p : MPPTaskId × Data => writeTunnel_preserves p.1 p.2) c.writes

/-- How the `try` block ends: with all tunnels done, or with all of them open. -/
inductive Copied (d : Dispatch Data) : EStateM.Result Interrupt (MPPWorld Data) Unit → Prop
  | done (w : MPPWorld Data) (h : ∀ id tunnel, w.tunnels id = some tunnel → tunnel.doneCalls = 1) :
      Copied d (.ok () w)
  | interrupted (i : Interrupt) (w : MPPWorld Data) (h : d.Running w) : Copied d (.error i w)

theorem copy_spec (h : d.Running w) : Copied d (d.copy w) := by
  have hcalls := calls_preserves d.io.calls w h
  show Copied d (EStateM.bind (d.io.calls.forM call) (fun _ => finishWrite) w)
  unfold EStateM.bind
  cases hrun : d.io.calls.forM call w with
  | error i w' =>
    rw [hrun] at hcalls
    exact .interrupted i w' hcalls
  | ok u w' =>
    rw [hrun] at hcalls
    have hrunning : d.Running w' := hcalls
    obtain ⟨w'', hfinish, hframe, hdone⟩ := forM_writeDone_spec hrunning.pending
    have hok : finishWrite w' = .ok () w'' := hfinish
    simp only [hok]
    refine .done w'' fun id tunnel htunnel => ?_
    by_cases hmem : id ∈ w'.receivers
    · obtain ⟨tunnel', htunnel', hcalls'⟩ := hdone id hmem
      rw [htunnel, some.injEq] at htunnel'
      exact htunnel' ▸ hcalls'
    · -- the task has no other tunnels
      exact absurd (hrunning.mem_of_stays (hframe.stays id hmem) htunnel) hmem

/-! ## The clean-up after an error -/

/-- When an exception leaves the `try` block: there is no tunnel, or the waits have a bound and each receiver
is connected in its turn. Without a bound the thread may wait for ever. -/
def ErrorDelivered (d : Dispatch Data) (w : MPPWorld Data) : Prop :=
  w.receivers = [] ∨ (0 < d.request.timeout ↔ AllConnect w.receivers w)

theorem runImpl_eq (w : MPPWorld Data) :
    d.runImpl w = match catchException d.copy writeErrToAllTunnel w with
      | .ok _ w' => .ok () { w' with taskMap := update w'.taskMap d.request.taskMeta none }
      | .error i w' => .error i w' := by
  show EStateM.bind (catchException d.copy writeErrToAllTunnel) _ w = _
  unfold EStateM.bind
  cases catchException d.copy writeErrToAllTunnel w <;> rfl

variable {w' : MPPWorld Data}

theorem runCleansUp_of_ok (h : d.Running w) (hcopy : d.copy w = .ok () w') :
    d.RunCleansUp w := by
  have hdone : ∀ id tunnel, w'.tunnels id = some tunnel → tunnel.doneCalls = 1 := by
    have hspec := copy_spec h
    rw [hcopy] at hspec
    cases hspec with
    | done _ hdone => exact hdone
  have hrun := runImpl_eq (d := d) w
  simp only [catchException, hcopy] at hrun
  simp only [RunCleansUp, hrun]
  refine ⟨?_, hdone, fun hfailed => absurd hcopy (hfailed w')⟩
  show update w'.taskMap d.request.taskMeta none d.request.taskMeta ≠ some d.task
  rw [update_self]
  exact some_ne_none d.task |>.symm

/-- After an exception everything depends on the clean-up. -/
theorem runCleansUp_of_exception {msg : String} (h : d.Running w)
    (hcopy : d.copy w = .error (.exception msg) w') : d.RunCleansUp w ↔ d.ErrorDelivered w' := by
  have hrunning : d.Running w' := by
    have hspec := copy_spec h
    rw [hcopy] at hspec
    cases hspec with
    | interrupted _ _ hrunning => exact hrunning
  have hrun := runImpl_eq (d := d) w
  have hcatch : catchException d.copy writeErrToAllTunnel w = w'.receivers.forM (writeErrTunnel msg) w' := by
    simp only [catchException, hcopy]
    rfl
  have hwritten := forM_writeErr_spec hrunning.pending msg
  rw [hcatch] at hrun
  generalize hresult : w'.receivers.forM (writeErrTunnel msg) w' = result at hrun hwritten
  cases hwritten with
  | missing msg' w'' hconnect =>
    have hne : w'.receivers ≠ [] := by
      intro hnil
      rw [hnil] at hconnect
      exact hconnect trivial
    simp only [RunCleansUp, hrun, ErrorDelivered, hne, hconnect, false_or, iff_false, not_lt]
    by_cases hpos : 0 < d.request.timeout
    · simp only [if_pos hpos]
      exact iff_of_false id (by omega)
    · simp only [if_neg hpos]
      exact iff_of_true trivial (by omega)
  | delivered w'' hconnect hframe hfailed =>
    have hthrew : ∀ w₃, d.copy w ≠ .ok () w₃ := by
      intro w₃ hok
      rw [hcopy] at hok
      cases hok
    -- every tunnel of the task was reached
    have hreached : ∀ id tunnel, w''.tunnels id = some tunnel →
        id ∈ w'.receivers ∧ tunnel.Failed d.request.timeout := by
      intro id tunnel htunnel
      have hmem : id ∈ w'.receivers := by
        by_contra hmem
        exact hmem (hrunning.mem_of_stays (hframe.stays id hmem) htunnel)
      obtain ⟨tunnel', htunnel', hdone, -⟩ := hfailed id hmem
      rw [htunnel, some.injEq] at htunnel'
      exact ⟨hmem, htunnel' ▸ hdone⟩
    simp only [RunCleansUp, hrun, ErrorDelivered, hconnect, iff_true]
    constructor
    · intro hclean
      by_contra hnot
      rw [not_or] at hnot
      obtain ⟨hne, hzero⟩ := hnot
      obtain ⟨id, hmem⟩ := exists_mem_of_ne_nil _ hne
      obtain ⟨tunnel, htunnel, hdone, hconnected⟩ := hfailed id hmem
      exact hzero (hdone.error_iff.1 (hclean.error_sent hthrew id tunnel htunnel hconnected))
    · intro hdelivered
      refine ⟨?_, fun id tunnel htunnel => (hreached id tunnel htunnel).2.done, ?_⟩
      · show update w''.taskMap d.request.taskMeta none d.request.taskMeta ≠ some d.task
        rw [update_self]
        exact (some_ne_none d.task).symm
      · intro _ id tunnel htunnel _
        obtain ⟨hmem, hdone⟩ := hreached id tunnel htunnel
        refine hdone.error_iff.2 (hdelivered.resolve_left ?_)
        exact ne_nil_of_mem hmem

/-! ## The dispatch -/

/-- How a part of `prepare` ends: it throws if and only if `P` does not hold. -/
inductive Built (P : Prop) (Q R : MPPWorld Data → Prop) : EStateM.Result Interrupt (MPPWorld Data) Unit → Prop
  | ok (w : MPPWorld Data) (hP : P) (hQ : Q w) : Built P Q R (.ok () w)
  | throws (msg : String) (w : MPPWorld Data) (hP : ¬ P) (hR : R w) : Built P Q R (.error (.exception msg) w)

section Built

variable {P P' : Prop} {Q Q' R : MPPWorld Data → Prop} {x y : MPPM Data Unit}

theorem Built.bind (h : Built P Q R (x w)) (h' : ∀ w', Q w' → Built P' Q' R (y w')) :
    Built (P ∧ P') Q' R ((x >>= fun _ => y) w) := by
  show Built (P ∧ P') Q' R (EStateM.bind x (fun _ => y) w)
  unfold EStateM.bind
  generalize x w = result at h
  cases h with
  | throws msg w' hP hR => exact .throws msg w' (fun h => hP h.1) hR
  | ok w' hP hQ =>
    have hrest := h' w' hQ
    simp only
    generalize y w' = result at hrest
    cases hrest with
    | throws msg w'' hP' hR => exact .throws msg w'' (fun h => hP' h.2) hR
    | ok w'' hP' hQ' => exact .ok w'' ⟨hP, hP'⟩ hQ'

theorem Built.congr {result : EStateM.Result Interrupt (MPPWorld Data) Unit} (h : Built P Q R result)
    (hiff : P ↔ P') : Built P' Q R result := by
  cases h with
  | ok w hP hQ => exact .ok w (hiff.1 hP) hQ
  | throws msg w hP hR => exact .throws msg w (fun h => hP (hiff.2 h)) hR

theorem Built.throwIf (msg : Option String) (hQ : Q w) (hR : R w) : Built (msg = none) Q R (throwIf msg w) := by
  cases msg with
  | none => exact .ok w rfl hQ
  | some msg => exact .throws msg w (by simp) hR

end Built

theorem Running.registerTunnel (h : d.Running w)
    (hnone : w.tunnels id = none) (hopen : tunnel.Open d.request.timeout) :
    d.Running { w.setTunnel id tunnel with
      receivers := w.receivers.orderedInsert (fun a b => a.lt b) id } := by
  have hperm := perm_orderedInsert (fun a b : MPPTaskId => a.lt b) id w.receivers
  have hnotMem : id ∉ w.receivers := by
    intro hmem
    obtain ⟨tunnel', htunnel', -⟩ := h.pending.is_open id hmem
    rw [hnone] at htunnel'
    cases htunnel'
  refine ⟨h.registered, ⟨?_, ?_⟩, ?_⟩
  · exact hperm.nodup_iff.2 (nodup_cons.2 ⟨hnotMem, h.pending.nodup⟩)
  · intro id' hmem
    rcases mem_cons.1 (hperm.mem_iff.1 hmem) with rfl | hmem
    · exact ⟨tunnel, setTunnel_self, hopen⟩
    · obtain ⟨tunnel', htunnel', hopen'⟩ := h.pending.is_open id' hmem
      exact ⟨tunnel', (setTunnel_of_ne (ne_of_mem_of_not_mem hmem hnotMem)).trans htunnel', hopen'⟩
  · intro id' tunnel' htunnel'
    refine hperm.mem_iff.2 (mem_cons.2 ?_)
    by_cases heq : id' = id
    · exact .inl heq
    · refine .inr (h.mem_receivers id' tunnel' ?_)
      rw [← htunnel']
      exact (setTunnel_of_ne heq).symm

/-- The tunnels are registered unless a receiver occurs twice. -/
theorem registerTunnels_spec (ids : List MPPTaskId) (h : d.Running w) :
    Built (ids.Nodup ∧ ∀ id ∈ ids, w.tunnels id = none) d.Running
      (fun w => w.taskMap d.request.taskMeta = some d.task) (d.registerTunnels ids w) := by
  induction ids generalizing w with
  | nil => exact .ok w (by simp) h
  | cons id ids ih =>
    show Built _ _ _ (EStateM.bind
      (registerTunnel id (.new id d.request.taskMeta d.request.timeout)) (fun _ => d.registerTunnels ids) w)
    unfold EStateM.bind registerTunnel
    cases htunnel : w.tunnels id with
    | some tunnel =>
      refine .throws _ w ?_ h.registered
      rintro ⟨-, hnone⟩
      have := hnone id mem_cons_self
      rw [htunnel] at this
      cases this
    | none =>
      have hopen : (MPPTunnel.new id d.request.taskMeta d.request.timeout : MPPTunnel Data).Open
          d.request.timeout := ⟨rfl, rfl, rfl, by simp [MPPTunnel.new]⟩
      have hrest := ih (h.registerTunnel htunnel hopen)
      simp only
      generalize d.registerTunnels ids _ = result at hrest
      -- the rest is free of the new receiver
      have hiff : (ids.Nodup ∧ ∀ id' ∈ ids, (w.setTunnel id
            (MPPTunnel.new id d.request.taskMeta d.request.timeout)).tunnels id' = none) ↔
          (id :: ids).Nodup ∧ ∀ id' ∈ id :: ids, w.tunnels id' = none := by
        rw [nodup_cons]
        constructor
        · rintro ⟨hnodup, hnone⟩
          have hnotMem : id ∉ ids := by
            intro hmem
            have := hnone id hmem
            rw [setTunnel_self] at this
            cases this
          refine ⟨⟨hnotMem, hnodup⟩, fun id' hmem => ?_⟩
          rcases mem_cons.1 hmem with rfl | hmem
          · exact htunnel
          · rw [← hnone id' hmem, setTunnel_of_ne (ne_of_mem_of_not_mem hmem hnotMem)]
        · rintro ⟨⟨hnotMem, hnodup⟩, hnone⟩
          refine ⟨hnodup, fun id' hmem => ?_⟩
          rw [setTunnel_of_ne (ne_of_mem_of_not_mem hmem hnotMem)]
          exact hnone id' (mem_cons_of_mem id hmem)
      exact hrest.congr hiff

def Rejected (d : Dispatch Data) (w : MPPWorld Data) : Prop :=
  d.request.plan = none ∨ duplicateRegion [] d.request.regions ≠ none ∨ d.timezone ≠ none ∨
    w.taskMap d.request.taskMeta ≠ none

/-- Nothing throws after the task is registered. -/
def Builds (d : Dispatch Data) (receivers : List MPPTaskId) : Prop :=
  d.dagContext = none ∧ d.querySource = none ∧ receivers.Nodup ∧ d.executeQuery = none ∧
    d.partitionKeys = none ∧ d.responseWriter = none ∧ d.thread = none

/-- The state before a dispatch: the new task has no tunnels and is not registered. -/
structure Fresh (d : Dispatch Data) (w : MPPWorld Data) : Prop where
  not_registered : w.taskMap d.request.taskMeta ≠ some d.task
  no_tunnels : ∀ id, w.tunnels id = none
  no_receivers : w.receivers = []

/-- The dispatch is rejected, or nothing throws after the task is registered and an exception in `runImpl`
finds the receivers connected. -/
def Safe (d : Dispatch Data) (w : MPPWorld Data) : Prop := d.Rejected w ∨
    (∀ receivers, d.request.plan = some receivers → d.Builds receivers) ∧
      ∀ w₁ msg w₂, d.execute w = .ok none w₁ → d.copy w₁ = .error (.exception msg) w₂ → d.ErrorDelivered w₂

theorem execute_of_rejected (h : d.Rejected w) : ∃ msg, d.execute w = .ok (some msg) w := by
  unfold execute prepare checkRequest catchException
  cases hplan : d.request.plan with
  | none => exact ⟨_, rfl⟩
  | some receivers =>
    cases hregion : duplicateRegion [] d.request.regions with
    | some region => exact ⟨_, rfl⟩
    | none =>
      cases htimezone : d.timezone with
      | some msg => exact ⟨msg, rfl⟩
      | none =>
        have hregistered : w.taskMap d.request.taskMeta ≠ none := by
          simpa [Rejected, hplan, hregion, htimezone] using h
        obtain ⟨task, htask⟩ := ne_none_iff_exists'.1 hregistered
        refine ⟨"The task " ++ d.request.taskMeta.text ++ " has been registered", ?_⟩
        simp only [throwIf, bind, EStateM.bind, pure, EStateM.pure, registerTask, htask]

def registered (d : Dispatch Data) (w : MPPWorld Data) : MPPWorld Data :=
  { w with taskMap := update w.taskMap d.request.taskMeta (some d.task) }

theorem prepare_of_not_rejected (h : ¬ d.Rejected w) :
    ∃ receivers, d.request.plan = some receivers ∧ d.prepare w = d.build receivers (d.registered w) := by
  simp only [Rejected, not_or, not_not] at h
  obtain ⟨hplan, hregion, htimezone, htask⟩ := h
  obtain ⟨receivers, hplan⟩ := ne_none_iff_exists'.1 hplan
  refine ⟨receivers, hplan, ?_⟩
  unfold prepare checkRequest
  simp only [hplan, hregion, htimezone, throwIf, bind, EStateM.bind, pure, EStateM.pure, registerTask, htask]
  rfl

theorem running_registered (h : d.Fresh w) : d.Running (d.registered w) := by
  refine ⟨update_self .., ⟨?_, ?_⟩, ?_⟩
  · rw [show (d.registered w).receivers = [] from h.no_receivers]
    exact nodup_nil
  · intro id hmem
    rw [show (d.registered w).receivers = [] from h.no_receivers] at hmem
    exact absurd hmem not_mem_nil
  · intro id tunnel htunnel
    have hnone : (d.registered w).tunnels id = none := h.no_tunnels id
    rw [hnone] at htunnel
    cases htunnel

theorem build_spec (h : d.Fresh w) (receivers : List MPPTaskId) :
    Built (d.Builds receivers) d.Running (fun w => w.taskMap d.request.taskMeta = some d.task)
      ((d.build receivers >>= fun _ => throwIf d.thread) (d.registered w)) := by
  have hrunning := running_registered h
  have hnone : ∀ id ∈ receivers, (d.registered w).tunnels id = none := fun id _ => h.no_tunnels id
  have htunnels : Built receivers.Nodup d.Running (fun w => w.taskMap d.request.taskMeta = some d.task)
      (d.registerTunnels receivers (d.registered w)) :=
    (registerTunnels_spec receivers hrunning).congr (and_iff_left hnone)
  have hthrow : ∀ msg w', d.Running w' → Built (msg = none) d.Running
      (fun w => w.taskMap d.request.taskMeta = some d.task) (throwIf msg w') :=
    fun msg w' hw' => Built.throwIf msg hw' hw'.registered
  have hbuild : Built (d.dagContext = none ∧ d.querySource = none ∧ receivers.Nodup ∧ d.executeQuery = none ∧
      d.partitionKeys = none ∧ d.responseWriter = none) d.Running
      (fun w => w.taskMap d.request.taskMeta = some d.task) (d.build receivers (d.registered w)) := by
    -- the state does not change before the tunnels are registered
    refine Built.bind (Q := (· = d.registered w)) (Built.throwIf _ rfl hrunning.registered) ?_
    rintro _ rfl
    refine Built.bind (Q := (· = d.registered w)) (Built.throwIf _ rfl hrunning.registered) ?_
    rintro _ rfl
    refine htunnels.bind fun w₁ hw₁ => ?_
    refine (hthrow _ w₁ hw₁).bind fun w₂ hw₂ => ?_
    exact (hthrow _ w₂ hw₂).bind fun w₃ hw₃ => hthrow _ w₃ hw₃
  refine (hbuild.bind fun w' hw' => hthrow d.thread w' hw').congr ?_
  unfold Builds
  tauto

/-- How `execute` ends for a dispatch that is not rejected. -/
theorem execute_of_not_rejected (hfresh : d.Fresh w) (h : ¬ d.Rejected w) :
    ∃ receivers, d.request.plan = some receivers ∧
      ((∃ w₁, d.execute w = .ok none w₁ ∧ d.Builds receivers ∧ d.Running w₁) ∨
        ∃ msg w₁, d.execute w = .ok (some msg) w₁ ∧ ¬ d.Builds receivers ∧
          w₁.taskMap d.request.taskMeta = some d.task) := by
  obtain ⟨receivers, hplan, hprepare⟩ := prepare_of_not_rejected h
  refine ⟨receivers, hplan, ?_⟩
  have hspec := build_spec hfresh receivers
  -- the body of `try` is the build, the start of the thread and the empty response
  have hbody : d.execute w = catchException
      ((d.build receivers >>= fun _ => throwIf d.thread) >>= fun _ => pure none)
      (fun msg => pure (some msg)) (d.registered w) := by
    simp only [execute, catchException, bind, EStateM.bind, hprepare]
    cases d.build receivers (d.registered w) with
    | ok u w' | error i w' => rfl
  rw [hbody]
  simp only [catchException]
  generalize hresult : (d.build receivers >>= fun _ => throwIf d.thread) (d.registered w) = result at hspec
  cases hspec with
  | ok w₁ hbuilds hrunning =>
    rw [bind_of_ok hresult]
    exact .inl ⟨w₁, rfl, hbuilds, hrunning⟩
  | throws msg w₁ hbuilds hregistered =>
    refine .inr ⟨msg, w₁, ?_, hbuilds, hregistered⟩
    have hthrows : ((d.build receivers >>= fun _ => throwIf d.thread) >>= fun _ => pure (none : Option String))
        (d.registered w) = .error (.exception msg) w₁ := by
      show EStateM.bind (d.build receivers >>= fun _ => throwIf d.thread) _ (d.registered w) = _
      simp only [EStateM.bind, hresult]
    rw [hthrows]
    rfl

/-- **Clean-up.** A dispatch leaves nothing behind if and only if it is safe. -/
theorem cleansUp_iff_safe (d : Dispatch Data) (w : MPPWorld Data) (hfresh : d.Fresh w) :
    d.CleansUp w ↔ d.Safe w := by
  by_cases hrejected : d.Rejected w
  · obtain ⟨msg, hexecute⟩ := execute_of_rejected hrejected
    refine iff_of_true ?_ (.inl hrejected)
    simp only [CleansUp, hexecute]
    refine ⟨hfresh.not_registered, fun id tunnel htunnel => ?_, fun _ id tunnel htunnel => ?_⟩
    · rw [hfresh.no_tunnels id] at htunnel
      cases htunnel
    · rw [hfresh.no_tunnels id] at htunnel
      cases htunnel
  · obtain ⟨receivers, hplan, ⟨w₁, hexecute, hbuilds, hrunning⟩ | ⟨msg, w₁, hexecute, hbuilds, hregistered⟩⟩ :=
      execute_of_not_rejected hfresh hrejected
    · have hclean : d.CleansUp w ↔ d.RunCleansUp w₁ := by simp only [CleansUp, hexecute]
      -- what is left of the condition is about the exceptions of the copy
      have hsafe : d.Safe w ↔ ∀ msg w₂, d.copy w₁ = .error (.exception msg) w₂ → d.ErrorDelivered w₂ := by
        rw [Safe, or_iff_right hrejected]
        refine ⟨fun h msg w₂ => h.2 w₁ msg w₂ hexecute, fun h => ⟨fun receivers' hplan' => ?_, ?_⟩⟩
        · rw [hplan, some.injEq] at hplan'
          exact hplan' ▸ hbuilds
        · intro w' msg w₂ hexecute'
          rw [hexecute] at hexecute'
          cases hexecute'
          exact h msg w₂
      rw [hclean, hsafe]
      cases hcopy : d.copy w₁ with
      | ok u w₂ => exact iff_of_true (runCleansUp_of_ok hrunning hcopy) (by simp)
      | error i w₂ =>
        cases i with
        | waits =>
          have hrun : d.runImpl w₁ = .error .waits w₂ := by
            rw [runImpl_eq]
            simp only [catchException, hcopy]
          exact iff_of_true (by simp only [RunCleansUp, hrun]) (by simp)
        | exception msg =>
          rw [runCleansUp_of_exception hrunning hcopy]
          refine ⟨fun hdelivered msg' w' heq => ?_, fun h => h msg w₂ rfl⟩
          cases heq
          exact hdelivered
    · -- the task stays registered
      refine iff_of_false ?_ ?_
      · simp only [CleansUp, hexecute]
        intro hclean
        exact hclean.not_registered hregistered
      · rintro (hrejected' | ⟨hall, -⟩)
        · exact hrejected hrejected'
        · exact hbuilds (hall receivers hplan)

/-! ## Cases -/

/-- A call that writes nothing and throws `msg`, if there is one. -/
def quiet (msg : Option String) : StreamCall Data := ⟨[], msg⟩

/-- A task with two receivers; `query` and `read` are what `executeQuery` and the first read throw. -/
def twoReceivers (timeout : Nat) (query read : Option String) : Dispatch Data where
  request := ⟨⟨1, 1⟩, timeout, "", some [⟨1, 2⟩, ⟨1, 3⟩], []⟩
  task := 0
  timezone := none
  dagContext := none
  querySource := none
  executeQuery := query
  partitionKeys := none
  responseWriter := none
  thread := none
  io := ⟨quiet none, quiet none, [], quiet read, quiet none, quiet none, quiet none⟩

variable (arrivals : List (List MPPTaskId))

/-- No task is registered; `arrivals` are the receivers that connect. -/
def noTask : MPPWorld Data := ⟨fun _ => none, fun _ => none, [], arrivals⟩

theorem fresh_noTask : d.Fresh (noTask arrivals) := ⟨(some_ne_none d.task).symm, fun _ => rfl, rfl⟩

theorem connected_receivers_get_error :
    (twoReceivers 3 none (some "read") : Dispatch Nat).CleansUp (noTask [[⟨1, 2⟩, ⟨1, 3⟩]]) := by
  refine (cleansUp_iff_safe _ _ (fresh_noTask _)).2 (.inr ⟨?_, ?_⟩)
  · intro receivers hplan
    cases hplan
    exact ⟨rfl, rfl, by decide, rfl, rfl, rfl, rfl⟩
  · intro w₁ msg w₂ hexecute hcopy
    cases hexecute
    cases hcopy
    exact .inr (iff_of_true (by decide) ⟨⟨_, rfl, rfl⟩, ⟨_, rfl, rfl⟩, trivial⟩)

/-- The task stays registered if `executeQuery` throws. If a read throws before the receivers connect, an
exception leaves `runImpl`; if the timeout is zero, the receivers get no error. -/
theorem failed_task_left_behind :
    ¬ (twoReceivers 3 (some "query") none : Dispatch Nat).CleansUp (noTask []) ∧
    ¬ (twoReceivers 3 none (some "read") : Dispatch Nat).CleansUp (noTask []) ∧
    ¬ (twoReceivers 0 none (some "read") : Dispatch Nat).CleansUp (noTask [[⟨1, 2⟩, ⟨1, 3⟩]]) := by
  refine ⟨fun h => h.not_registered rfl, fun h => h, fun h => ?_⟩
  obtain ⟨packet, hmem, -⟩ := h.error_sent (fun w hok => by cases hok) ⟨1, 2⟩ _ rfl rfl
  cases hmem

end Dispatch

end TiFlash.Flash
