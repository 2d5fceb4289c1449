import NonceSweep.Journal.Session

/-!
# Results and events of sessions

A session that goes on after another has the events of both, unless the first fails. What a session comes to
and what it logs are therefore found part by part.

## Main results

- `Session.result_bind_of_ok`, `Session.events_bind_of_ok`: a session after one that has not failed
- `Session.Calm.bind`: sessions that log no error
- `Session.Goes.bind`: what sessions come to, the phases that they open, and the calls that they make
-/

namespace NonceSweep

namespace Session

variable {α β : Type} {s : Session α}

/-! ## Results -/

theorem result_bind_of_ok {value : α} (h : s.result = .ok value) (f : α → Session β) :
    (s >>= f).result = (f value).result := by
  show (Session.bind s f).result = (f value).result
  simp only [Session.bind, h]

theorem bind_of_error {failure : Failure} (h : s.result = .error failure) (f : α → Session β) :
    s >>= f = ⟨s.journal, .error failure⟩ := by
  show Session.bind s f = _
  simp only [Session.bind, h]

theorem result_bind_of_error {failure : Failure} (h : s.result = .error failure) (f : α → Session β) :
    (s >>= f).result = .error failure := by
  rw [bind_of_error h]

@[simp] theorem result_log (events : List Event) : (log events).result = .ok () := rfl

theorem result_allocate (b : Backend) (options : Engine.Options) :
    (allocate b options).result = .ok (b.allocate options).2 := rfl

/-! ## Events -/

theorem events_bind_of_ok {value : α} (h : s.result = .ok value) (f : α → Session β) :
    (s >>= f).events = s.events ++ (f value).events := by
  show (Session.bind s f).events = _
  simp only [Session.bind, h, events, List.filterMap_append]

theorem events_bind_of_error {failure : Failure} (h : s.result = .error failure) (f : α → Session β) :
    (s >>= f).events = s.events := by
  rw [bind_of_error h]
  rfl

@[simp] theorem events_log (events : List Event) : (log events).events = events := by
  show (events.map Entry.event).filterMap _ = events
  rw [List.filterMap_map]
  exact List.filterMap_some

/-- What a session comes to can be turned into something else without an event. -/
theorem events_bind_pure (s : Session α) (f : α → β) :
    (s >>= fun value => pure (f value)).events = s.events := by
  cases hresult : s.result with
  | error failure => exact events_bind_of_error hresult _
  | ok value =>
    rw [events_bind_of_ok hresult]
    exact List.append_nil _

/-! ## Calls -/

theorem calls_bind_of_ok {value : α} (h : s.result = .ok value) (f : α → Session β) :
    (s >>= f).calls = s.calls ++ (f value).calls := by
  show (Session.bind s f).calls = _
  simp only [Session.bind, h, calls, List.filterMap_append]

/-! ## Sessions without errors -/

/-- No error is logged. -/
def Calm (s : Session α) : Prop := ∀ event ∈ s.events, event.level ≠ .error

namespace Calm

theorem bind (h : s.Calm) {f : α → Session β} (hf : ∀ value, s.result = .ok value → (f value).Calm) :
    (s >>= f).Calm := by
  unfold Calm
  cases hresult : s.result with
  | error failure =>
    rw [events_bind_of_error hresult]
    exact h
  | ok value =>
    rw [events_bind_of_ok hresult]
    intro event hevent
    rcases List.mem_append.mp hevent with hbefore | hafter
    · exact h event hbefore
    · exact hf value hresult event hafter

theorem pure (value : α) : (Pure.pure value : Session α).Calm :=
  fun _ h => absurd h List.not_mem_nil

theorem note (call : SetupCall) : (Session.note call).Calm :=
  fun _ h => absurd h List.not_mem_nil

theorem log {events : List Event} (h : ∀ event ∈ events, event.level ≠ .error) :
    (Session.log events).Calm := by
  unfold Calm
  rw [events_log]
  exact h

theorem log_notices (notices : List Engine.Notice) : (Session.log (notices.map .engine)).Calm := by
  apply Calm.log
  intro event hevent
  obtain ⟨notice, -, rfl⟩ := List.mem_map.mp hevent
  cases notice <;> exact Level.noConfusion

/-! ### The engine -/

theorem allocate (b : Backend) (options : Engine.Options) : (Session.allocate b options).Calm :=
  (Calm.note _).bind fun _ _ => (Calm.log_notices _).bind fun _ _ => Calm.pure _

theorem seed (b : Backend) (plan : Plan) (shared : b.Shared) : (Session.seed b plan shared).Calm :=
  (Calm.note _).bind fun _ _ => (Calm.log_notices _).bind fun _ _ => Calm.pure _

theorem hasher (b : Backend) (shared : b.Shared) (index : Nat) : (Session.hasher b shared index).Calm :=
  (Calm.note _).bind fun _ _ => Calm.pure _

end Calm

/-! ## The course of a session -/

/-- **How a session goes**: what it comes to, the phases that it opens, and the calls that it makes. -/
structure Goes (s : Session α) (result : Except Failure α) (phases : List Phase) (calls : List SetupCall) :
    Prop where
  result_eq : s.result = result
  phases_eq : s.events.filterMap Event.phase? = phases
  calls_eq : s.calls = calls

namespace Goes

variable {result : Except Failure β} {phases later : List Phase} {calls laterCalls : List SetupCall}

theorem bind {value : α} (h : s.Goes (.ok value) phases calls) {f : α → Session β}
    (hf : (f value).Goes result later laterCalls) :
    (s >>= f).Goes result (phases ++ later) (calls ++ laterCalls) := by
  refine ⟨?_, ?_, ?_⟩
  · rw [result_bind_of_ok h.result_eq, hf.result_eq]
  · rw [events_bind_of_ok h.result_eq, List.filterMap_append, h.phases_eq, hf.phases_eq]
  · rw [calls_bind_of_ok h.result_eq, h.calls_eq, hf.calls_eq]

theorem bind_of_error {failure : Failure} (h : s.Goes (.error failure) phases calls) (f : α → Session β) :
    (s >>= f).Goes (.error failure) phases calls := by
  rw [Session.bind_of_error h.result_eq]
  exact ⟨rfl, h.phases_eq, h.calls_eq⟩

theorem pure (value : α) : (Pure.pure value : Session α).Goes (.ok value) [] [] := ⟨rfl, rfl, rfl⟩

/-- What a session comes to can be turned into something else. -/
theorem bind_pure {value : α} (h : s.Goes (.ok value) phases calls) (f : α → β) :
    (s >>= fun value => Pure.pure (f value)).Goes (.ok (f value)) phases calls := by
  rw [← List.append_nil phases, ← List.append_nil calls]
  exact h.bind (Goes.pure (f value))

theorem fail (failure : Failure) : (Session.fail failure : Session α).Goes (.error failure) [] [] :=
  ⟨rfl, rfl, rfl⟩

theorem note (call : SetupCall) : (Session.note call).Goes (.ok ()) [] [call] := ⟨rfl, rfl, rfl⟩

theorem log (events : List Event) : (Session.log events).Goes (.ok ()) (events.filterMap Event.phase?) [] := by
  refine ⟨rfl, ?_, ?_⟩
  · rw [events_log]
  · show (events.map Entry.event).filterMap _ = []
    rw [List.filterMap_map]
    exact List.filterMap_eq_nil_iff.mpr fun _ _ => rfl

/-- Events that open no phase. -/
theorem log_quiet {events : List Event} (h : ∀ event ∈ events, event.phase? = none) :
    (Session.log events).Goes (.ok ()) [] [] := by
  have hlog := Goes.log events
  rwa [List.filterMap_eq_nil_iff.mpr h] at hlog

theorem log_notices (notices : List Engine.Notice) :
    (Session.log (notices.map .engine)).Goes (.ok ()) [] [] := by
  apply Goes.log_quiet
  intro event hevent
  obtain ⟨notice, -, rfl⟩ := List.mem_map.mp hevent
  rfl

/-! ### The engine -/

theorem allocate (b : Backend) (options : Engine.Options) :
    (Session.allocate b options).Goes (.ok (b.allocate options).2) [] [.allocate options] :=
  (Goes.note _).bind ((Goes.log_notices _).bind (Goes.pure _))

theorem seed (b : Backend) (plan : Plan) (shared : b.Shared) :
    (Session.seed b plan shared).Goes (.ok (b.seed shared plan.engineSeed plan.initThreads.toNat).2) []
      [.seed plan.engineSeed plan.initThreads.toNat] :=
  (Goes.note _).bind ((Goes.log_notices _).bind (Goes.pure _))

theorem hasher (b : Backend) (shared : b.Shared) (index : Nat) :
    (Session.hasher b shared index).Goes (.ok (b.hasher shared index)) [] [.hasher index] :=
  (Goes.note _).bind (Goes.pure _)

end Goes

end Session

end NonceSweep
