import NonceSweep.Proofs.Pool.Diligence

/-!
# The books of a worker

The actions of a worker tell what has become of every number that it took: `Course` sorts them into those
that are merged, handed in, still in hand, and not below the bound. `Worker.Books` is the invariant that
ties this to the point where the worker stands, to its hasher and to its two candidates.

The same books serve all kinds of workers. One that hashes one by one never has more than one number open;
in a batch there can be two, the hash of the first coming with the submission of the second.

## Main results

- `Worker.Books.step`: no step of a worker puts its books out of order
- `Worker.Books.not_failed`: without calls that break off, no worker fails
- `Worker.Books.length_open_le`: how many numbers may be taken and not merged
-/

namespace NonceSweep

/-! ## What becomes of a number -/

/-- The numbers that a worker has taken, each list in order. -/
structure Course where
  merged : List UInt64
  /-- Handed in, but not yet merged. -/
  handed : List UInt64
  /-- Not yet handed in. -/
  inHand : List UInt64
  /-- Not below the bound, so never to be handed in. -/
  beyond : List UInt64

namespace Course

/-- Numbers below the bound that were taken, whatever has become of them. -/
def below (c : Course) : List UInt64 := c.merged ++ c.handed ++ c.inHand

/-- Nothing was taken yet. -/
def start : Course := ⟨[], [], [], []⟩

/-- What an action makes of the numbers. A merge is for the number that was handed in first. -/
def next (bound : UInt64) (c : Course) : Action → Course
  | .claim value =>
    if value < bound then { c with inHand := c.inHand ++ [value] }
    else { c with beyond := c.beyond ++ [value] }
  | .call .drain => c
  | .call _ => { c with handed := c.handed ++ c.inHand, inHand := [] }
  | .merge _ => { c with merged := c.merged ++ c.handed.take 1, handed := c.handed.drop 1 }
  | .log _ | .finish .. | .release => c

end Course

/-- The course that the actions of a worker with this bound have taken. -/
def course (bound : UInt64) (actions : List Action) : Course :=
  actions.foldl (Course.next bound) .start

@[simp] theorem course_concat (bound : UInt64) (actions : List Action) (a : Action) :
    course bound (actions ++ [a]) = (course bound actions).next bound a := by
  rw [course, List.foldl_append]
  rfl

variable {b : Backend}

/-! ## Tallies -/

/-- Actions of a worker bear out the course: they took, handed in and merged what the course says. -/
structure Tallies (task : Task b) (commits : Bool) (bound : UInt64) (actions : List Action)
    (c : Course) : Prop where
  claims : claims actions = c.merged ++ c.handed ++ c.inHand ++ c.beyond
  submissions : submissions actions = (c.merged ++ c.handed).map task.input
  merges : merges actions = c.merged.map (task.share commits)
  below : ∀ v ∈ c.merged ++ c.handed ++ c.inHand, v < bound
  beyond : ∀ v ∈ c.beyond, bound ≤ v

namespace Tallies

variable {task : Task b} {commits : Bool} {bound : UInt64} {actions : List Action} {c : Course}

theorem nil : Tallies task commits bound [] .start :=
  ⟨rfl, rfl, rfl, by simp [Course.start], by simp [Course.start]⟩

/-- An action that takes, hands in and merges nothing. -/
theorem quiet (h : Tallies task commits bound actions c) {a : Action} (hclaimed : a.claimed? = none)
    (hsubmitted : a.submitted? = none) (hmerged : a.merged? = none) :
    Tallies task commits bound (actions ++ [a]) c := by
  refine ⟨?_, ?_, ?_, h.below, h.beyond⟩
  · rw [← h.claims]
    simp [NonceSweep.claims, hclaimed]
  · rw [← h.submissions]
    simp [NonceSweep.submissions, hsubmitted]
  · rw [← h.merges]
    simp [NonceSweep.merges, hmerged]

/-- A number below the bound is taken while none is in hand. -/
theorem claim_below (h : Tallies task commits bound actions c) {value : UInt64}
    (hvalue : value < bound) (hhand : c.inHand = []) (hbeyond : c.beyond = []) :
    Tallies task commits bound (actions ++ [.claim value]) { c with inHand := [value] } := by
  refine ⟨?_, ?_, ?_, ?_, h.beyond⟩
  · -- what is in hand comes last of all, as nothing is beyond
    have hclaims := h.claims
    rw [hhand, hbeyond, List.append_nil, List.append_nil] at hclaims
    simp only [NonceSweep.claims, List.filterMap_append] at hclaims ⊢
    rw [hclaims, hbeyond]
    simp [Action.claimed?]
  · rw [← h.submissions]
    simp [NonceSweep.submissions, Action.submitted?]
  · rw [← h.merges]
    simp [NonceSweep.merges, Action.merged?]
  · intro v hv
    rw [List.mem_append] at hv
    rcases hv with hold | hnew
    · exact h.below v (List.mem_append_left _ hold)
    · rw [List.mem_singleton.mp hnew]
      exact hvalue

/-- A number is taken that is not below the bound, for the first time. -/
theorem claim_beyond (h : Tallies task commits bound actions c) {value : UInt64}
    (hvalue : ¬ value < bound) (hbeyond : c.beyond = []) :
    Tallies task commits bound (actions ++ [.claim value]) { c with beyond := [value] } := by
  refine ⟨?_, ?_, ?_, h.below, ?_⟩
  · have hclaims := h.claims
    rw [hbeyond, List.append_nil] at hclaims
    simp only [NonceSweep.claims, List.filterMap_append] at hclaims ⊢
    rw [hclaims]
    simp [Action.claimed?]
  · rw [← h.submissions]
    simp [NonceSweep.submissions, Action.submitted?]
  · rw [← h.merges]
    simp [NonceSweep.merges, Action.merged?]
  · intro v hv
    rw [List.mem_singleton.mp hv]
    exact UInt64.not_lt.mp hvalue

/-- The number in hand is handed in. -/
theorem submit (h : Tallies task commits bound actions c) {a : Action} {value : UInt64}
    (hhand : c.inHand = [value]) (hclaimed : a.claimed? = none)
    (hsubmitted : a.submitted? = some (task.input value)) (hmerged : a.merged? = none) :
    Tallies task commits bound (actions ++ [a])
      { c with handed := c.handed ++ [value], inHand := [] } := by
  refine ⟨?_, ?_, ?_, ?_, h.beyond⟩
  · -- the number changes its list, but not its place among the claims
    have hclaims := h.claims
    rw [hhand] at hclaims
    simp only [NonceSweep.claims, List.filterMap_append] at hclaims ⊢
    rw [hclaims]
    simp [hclaimed]
  · have hsubmissions := h.submissions
    simp only [NonceSweep.submissions, List.filterMap_append] at hsubmissions ⊢
    rw [hsubmissions]
    simp [hsubmitted]
  · rw [← h.merges]
    simp [NonceSweep.merges, hmerged]
  · intro v hv
    apply h.below v
    rw [hhand]
    simpa using hv

/-- The number that was handed in first is merged. -/
theorem merge (h : Tallies task commits bound actions c) {value : UInt64} {rest : List UInt64}
    (hhanded : c.handed = value :: rest) :
    Tallies task commits bound (actions ++ [.merge (task.share commits value)])
      { c with merged := c.merged ++ [value], handed := rest } := by
  refine ⟨?_, ?_, ?_, ?_, h.beyond⟩
  · -- the number changes its list, but not its place among the claims or the submissions
    have hclaims := h.claims
    rw [hhanded] at hclaims
    simp only [NonceSweep.claims, List.filterMap_append] at hclaims ⊢
    rw [hclaims]
    simp [Action.claimed?]
  · have hsubmissions := h.submissions
    rw [hhanded] at hsubmissions
    simp only [NonceSweep.submissions, List.filterMap_append] at hsubmissions ⊢
    rw [hsubmissions]
    simp [Action.submitted?]
  · have hmerges := h.merges
    simp only [NonceSweep.merges, List.filterMap_append] at hmerges ⊢
    rw [hmerges]
    simp [Action.merged?]
  · intro v hv
    apply h.below v
    rw [hhanded]
    simpa using hv

/-- The course sorts the numbers that were taken by whether they are below the bound. -/
theorem useful_eq (h : Tallies task commits bound actions c) : useful bound actions = c.below := by
  have hbelow : ∀ v ∈ c.below, decide (v < bound) = true :=
    fun v hv => decide_eq_true (h.below v hv)
  have hbeyond : ∀ v ∈ c.beyond, ¬ decide (v < bound) = true := by
    intro v hv
    rw [decide_eq_true_iff, UInt64.not_lt]
    exact h.beyond v hv
  have hclaims : NonceSweep.claims actions = c.below ++ c.beyond := h.claims
  rw [useful, hclaims, List.filter_append, List.filter_eq_self.mpr hbelow,
    List.filter_eq_nil_iff.mpr hbeyond, List.append_nil]

theorem excess_eq (h : Tallies task commits bound actions c) : excess bound actions = c.beyond := by
  have hbelow : ∀ v ∈ c.below, ¬ decide (bound ≤ v) = true := by
    intro v hv
    rw [decide_eq_true_iff, UInt64.not_le]
    exact h.below v hv
  have hbeyond : ∀ v ∈ c.beyond, decide (bound ≤ v) = true :=
    fun v hv => decide_eq_true (h.beyond v hv)
  have hclaims : NonceSweep.claims actions = c.below ++ c.beyond := h.claims
  rw [excess, hclaims, List.filter_append, List.filter_eq_nil_iff.mpr hbelow,
    List.filter_eq_self.mpr hbeyond, List.nil_append]

end Tallies

/-! ## Where a worker stands -/

theorem Point.after_ne_failed {α : Type} {a : Attempt α} {next : α → Point} (ha : a ≠ .panicked)
    (hnext : ∀ value, next value ≠ .failed) : Point.after a next ≠ .failed := by
  cases a with
  | done value => exact hnext value
  | panicked => exact absurd rfl ha

/-- A hasher holds back the input of the one number that is handed in, and a candidate still holds
    that input. -/
def Task.Pending (task : Task b) (hasher : b.Hasher) (candidate : Candidate)
    (handed : List UInt64) : Prop :=
  ∃ v, handed = [v] ∧ candidate = task.template.candidate v.toUInt32 ∧
    task.Holds hasher (some (task.input v))

namespace Worker

/-- What is handed in after the number whose hash a worker has. -/
def Behind (task : Task b) (w : Worker b) (last : Bool) (rest : List UInt64) : Prop :=
  if last = false ∧ w.strategy.batched = true then task.Pending w.hasher w.spare rest
  else rest = [] ∧ task.Holds w.hasher none

/-- The most numbers that a worker has taken and not merged. -/
def capacity (w : Worker b) : Nat := if w.strategy.batched then 2 else 1

theorem one_le_capacity (w : Worker b) : 1 ≤ w.capacity := by
  unfold capacity
  split <;> omega

theorem Behind.length_le {task : Task b} {w : Worker b} {last : Bool} {rest : List UInt64}
    (h : w.Behind task last rest) : rest.length + 1 ≤ w.capacity := by
  unfold Behind at h
  split at h
  case isTrue hboth =>
    obtain ⟨v, rfl, -⟩ := h
    rw [capacity, if_pos hboth.2]
    exact Nat.le_refl 2
  case isFalse =>
    rw [h.1]
    exact w.one_le_capacity

/-- The place of a worker fits its course. -/
def Stands (task : Task b) (w : Worker b) (c : Course) : Prop :=
  match w.point with
  | .binding .. | .claiming false =>
    c.handed = [] ∧ c.inHand = [] ∧ c.beyond = [] ∧ task.Holds w.hasher none
  | .claiming true =>
    w.strategy.batched = true ∧ task.Pending w.hasher w.current c.handed ∧ c.inHand = [] ∧ c.beyond = []
  | .submitting value false =>
    c.handed = [] ∧ c.inHand = [value] ∧ c.beyond = [] ∧ task.Holds w.hasher none
  | .submitting value true =>
    w.strategy.batched = true ∧ task.Pending w.hasher w.current c.handed ∧ c.inHand = [value] ∧
      c.beyond = []
  | .draining => task.Pending w.hasher w.current c.handed ∧ c.inHand = [] ∧ c.beyond.length = 1
  | .finishing hash last =>
    (∃ v rest, c.handed = v :: rest ∧ w.current = task.template.candidate v.toUInt32 ∧
      hash = task.hashOf (task.input v) ∧ w.Behind task last rest) ∧
      c.inHand = [] ∧ c.beyond.length = last.toNat
  | .merging update last =>
    (∃ v rest, c.handed = v :: rest ∧ update = task.share w.strategy.commits v ∧
      w.Behind task last rest) ∧ c.inHand = [] ∧ c.beyond.length = last.toNat
  | .leaving | .releasing =>
    c.handed = [] ∧ c.inHand = [] ∧ c.beyond.length = 1 ∧ task.Holds w.hasher none
  | .ended => c.handed = [] ∧ c.inHand = [] ∧ c.beyond.length = 1
  | .failed => c.handed.length ≤ w.capacity ∧ c.inHand = [] ∧ c.beyond.length ≤ 1

/-! ## Steps by strategy -/

theorem submit_advance {w : Worker b} (hbatched : w.strategy.batched = true) {value : UInt64}
    {x : Candidate} (hx : w.spare.patch value.toUInt32 = x) :
    w.submit value true = (.call (.advance x.bytes),
      { w with
        hasher := (b.advance w.hasher x.bytes).2
        spare := x
        point := .after (b.advance w.hasher x.bytes).1 fun hash => .finishing hash false }) := by
  subst hx
  unfold submit
  rw [if_pos hbatched, if_pos rfl]

theorem submit_prime {w : Worker b} (hbatched : w.strategy.batched = true) {value : UInt64}
    {x : Candidate} (hx : w.current.patch value.toUInt32 = x) :
    w.submit value false = (.call (.prime x.bytes),
      { w with
        hasher := (b.prime w.hasher x.bytes).2
        current := x
        point := .after (b.prime w.hasher x.bytes).1 fun _ => .claiming true }) := by
  subst hx
  unfold submit
  rw [if_pos hbatched, if_neg Bool.false_ne_true]

theorem submit_hash {w : Worker b} (hsingle : ¬ w.strategy.batched = true) {value : UInt64}
    {primed : Bool} {x : Candidate} (hx : w.current.patch value.toUInt32 = x) :
    w.submit value primed = (.call (.hash x.bytes),
      { w with
        hasher := (b.hash w.hasher x.bytes).2
        current := x
        point := .after (b.hash w.hasher x.bytes).1 fun hash => .finishing hash false }) := by
  subst hx
  unfold submit
  rw [if_neg hsingle]

theorem merge_batched {w : Worker b} (hbatched : w.strategy.batched = true) {update : Fingerprint} :
    w.merge update false = (.merge update,
      { w with
        current := w.spare
        spare := w.current
        hashes := w.hashes + 1
        point := .claiming true }) := by
  simp only [merge, Bool.false_eq_true, if_false, hbatched, if_true]

theorem merge_single {w : Worker b} (hsingle : ¬ w.strategy.batched = true) {update : Fingerprint} :
    w.merge update false =
      (.merge update, { w with hashes := w.hashes + 1, point := .claiming false }) := by
  simp only [merge, Bool.false_eq_true, if_false, hsingle]

/-- **The invariant of a worker** that has made these actions. -/
structure Books (task : Task b) (w : Worker b) (actions : List Action) : Prop where
  stands : w.Stands task (course w.bound actions)
  tallies : Tallies task w.strategy.commits w.bound actions (course w.bound actions)
  hashes : w.hashes = UInt64.ofNat (course w.bound actions).merged.length
  /-- Both candidates are the template with some nonce in its field. -/
  current : ∃ n, w.current = task.template.candidate n
  spare : ∃ n, w.spare = task.template.candidate n

namespace Books

variable {task : Task b} {w w' : Worker b} {actions : List Action}

theorem new {index : Nat} {strategy : Strategy} {bound : UInt64} {hasher : b.Hasher} {point : Point}
    (hholds : task.Holds hasher none)
    (hpoint : point = .claiming false ∨ ∃ processor allowed, point = .binding processor allowed) :
    (Worker.new index strategy bound hasher task.template point).Books task [] := by
  refine ⟨?_, .nil, rfl, ⟨0, rfl⟩, ⟨0, rfl⟩⟩
  rcases hpoint with rfl | ⟨processor, allowed, rfl⟩
  · exact ⟨rfl, rfl, rfl, hholds⟩
  · exact ⟨rfl, rfl, rfl, hholds⟩

/-! ## Steps, one kind at a time -/

/-- A worker goes on to another place on the same course. -/
theorem quiet (h : w.Books task actions) {a : Action} {point : Point} {hasher : b.Hasher}
    (hclaimed : a.claimed? = none) (hsubmitted : a.submitted? = none) (hmerged : a.merged? = none)
    (hstands : ({ w with hasher, point } : Worker b).Stands task (course w.bound actions)) :
    ({ w with hasher, point } : Worker b).Books task (actions ++ [a]) := by
  -- only claims, merges and calls with an input change the course
  have hcourse : course w.bound (actions ++ [a]) = course w.bound actions := by
    rw [course_concat]
    cases a with
    | claim value => cases hclaimed
    | merge update => cases hmerged
    | call made =>
      cases made with
      | drain => rfl
      | hash _ | prime _ | advance _ => cases hsubmitted
    | log _ | finish _ _ | release => rfl
  refine ⟨?_, ?_, ?_, h.current, h.spare⟩
  · rw [hcourse]
    exact hstands
  · rw [hcourse]
    exact h.tallies.quiet hclaimed hsubmitted hmerged
  · rw [hcourse]
    exact h.hashes

theorem claim (h : w.Books task actions) {primed : Bool} (hpoint : w.point = .claiming primed)
    (next : UInt64) :
    ({ w with
      point :=
        if next < w.bound then .submitting next primed
        else if primed then .draining else .leaving } : Worker b).Books task
      (actions ++ [.claim next]) := by
  have hstands := h.stands
  -- before a claim nothing is in hand and nothing is beyond, primed or not
  have hopen : (course w.bound actions).inHand = [] ∧ (course w.bound actions).beyond = [] := by
    unfold Stands at hstands
    rw [hpoint] at hstands
    cases primed with
    | false => exact ⟨hstands.2.1, hstands.2.2.1⟩
    | true => exact ⟨hstands.2.2.1, hstands.2.2.2⟩
  obtain ⟨hhand, hbeyond⟩ := hopen
  by_cases hbelow : next < w.bound
  · -- the number is to be handed in
    have hcourse : course w.bound (actions ++ [.claim next]) =
        { course w.bound actions with inHand := [next] } := by
      rw [course_concat, Course.next, if_pos hbelow, hhand, List.nil_append]
    refine ⟨?_, ?_, ?_, h.current, h.spare⟩
    · rw [hcourse, if_pos hbelow]
      unfold Stands at hstands ⊢
      rw [hpoint] at hstands
      cases primed with
      | false => exact ⟨hstands.1, rfl, hbeyond, hstands.2.2.2⟩
      | true => exact ⟨hstands.1, hstands.2.1, rfl, hbeyond⟩
    · rw [hcourse]
      exact h.tallies.claim_below hbelow hhand hbeyond
    · rw [hcourse]
      exact h.hashes
  · -- the number ends the loop
    have hcourse : course w.bound (actions ++ [.claim next]) =
        { course w.bound actions with beyond := [next] } := by
      rw [course_concat, Course.next, if_neg hbelow, hbeyond, List.nil_append]
    refine ⟨?_, ?_, ?_, h.current, h.spare⟩
    · rw [hcourse, if_neg hbelow]
      unfold Stands at hstands ⊢
      rw [hpoint] at hstands
      cases primed with
      | false => exact ⟨hstands.1, hhand, rfl, hstands.2.2.2⟩
      | true => exact ⟨hstands.2.1, hhand, rfl⟩
    · rw [hcourse]
      exact h.tallies.claim_beyond hbelow hbeyond
    · rw [hcourse]
      exact h.hashes

/-- The number in hand is handed in by some call. A call that breaks off leaves it handed in. -/
theorem handIn (h : w.Books task actions) {value : UInt64} {made : Call} {hasher : b.Hasher}
    {current spare : Candidate} {α : Type} {answer : Attempt α} {next : α → Point}
    (hhand : (course w.bound actions).inHand = [value]) (hmade : made.input? = some (task.input value))
    (hbeyond : (course w.bound actions).beyond = [])
    (hroom : (course w.bound actions).handed.length < w.capacity)
    (hcurrent : ∃ n, current = task.template.candidate n)
    (hspare : ∃ n, spare = task.template.candidate n)
    (hdone : ∀ result, answer = .done result →
      ({ w with hasher, current, spare, point := next result } : Worker b).Stands task
        { course w.bound actions with
          handed := (course w.bound actions).handed ++ [value], inHand := [] }) :
    ({ w with hasher, current, spare, point := .after answer next } : Worker b).Books task
      (actions ++ [.call made]) := by
  have hcourse : course w.bound (actions ++ [.call made]) =
      { course w.bound actions with
        handed := (course w.bound actions).handed ++ [value], inHand := [] } := by
    rw [course_concat]
    cases made with
    | drain => cases hmade
    | hash _ | prime _ | advance _ => simp only [Course.next, hhand]
  refine ⟨?_, ?_, ?_, hcurrent, hspare⟩
  · rw [hcourse]
    -- a call that breaks off has taken the number out of hand all the same
    cases hanswer : answer with
    | done result => exact hdone result hanswer
    | panicked =>
      refine ⟨?_, rfl, ?_⟩
      · rw [List.length_append]
        exact hroom
      · simp [hbeyond]
  · rw [hcourse]
    exact h.tallies.submit hhand rfl hmade rfl
  · rw [hcourse]
    exact h.hashes

theorem submit (honoured : task.Honoured) (h : w.Books task actions) {value : UInt64} {primed : Bool}
    (hpoint : w.point = .submitting value primed) :
    (w.submit value primed).2.Books task (actions ++ [(w.submit value primed).1]) := by
  have hstands := h.stands
  unfold Stands at hstands
  rw [hpoint] at hstands
  by_cases hbatched : w.strategy.batched = true
  · cases primed with
    | true =>
      -- the answer is about the number before, which `current` still holds
      obtain ⟨-, ⟨v, hhanded, hcurrent, hholds⟩, hhand, hbeyond⟩ := hstands
      rw [submit_advance hbatched (task.template.patch_of_candidate h.spare _), task.bytes_candidate]
      have hroom : (course w.bound actions).handed.length < w.capacity := by
        rw [hhanded, capacity, if_pos hbatched]
        exact Nat.one_lt_two
      apply h.handIn hhand rfl hbeyond hroom h.current ⟨_, rfl⟩
      intro digest hcall
      obtain ⟨hdigest, hnext⟩ := honoured.advance hholds hcall
      refine ⟨⟨v, [value], ?_, hcurrent, hdigest, ?_⟩, rfl, congrArg List.length hbeyond⟩
      · rw [hhanded]
        rfl
      · unfold Behind
        rw [if_pos ⟨rfl, hbatched⟩]
        exact ⟨value, rfl, rfl, hnext⟩
    | false =>
      obtain ⟨hhanded, hhand, hbeyond, hholds⟩ := hstands
      rw [submit_prime hbatched (task.template.patch_of_candidate h.current _), task.bytes_candidate]
      apply h.handIn hhand rfl hbeyond (hhanded ▸ w.one_le_capacity) ⟨_, rfl⟩ h.spare
      intro taken hcall
      refine ⟨hbatched, ⟨value, ?_, rfl, honoured.prime hholds hcall⟩, rfl, hbeyond⟩
      rw [hhanded]
      rfl
  · cases primed with
    | true => exact absurd hstands.1 hbatched
    | false =>
      obtain ⟨hhanded, hhand, hbeyond, hholds⟩ := hstands
      rw [submit_hash hbatched (task.template.patch_of_candidate h.current _), task.bytes_candidate]
      apply h.handIn hhand rfl hbeyond (hhanded ▸ w.one_le_capacity) ⟨_, rfl⟩ h.spare
      intro digest hcall
      obtain ⟨hdigest, hnext⟩ := honoured.hash hholds hcall
      refine ⟨⟨value, [], ?_, rfl, hdigest, ?_⟩, rfl, congrArg List.length hbeyond⟩
      · rw [hhanded]
        rfl
      · unfold Behind
        rw [if_neg fun hboth => hbatched hboth.2]
        exact ⟨rfl, hnext⟩

theorem drain (honoured : task.Honoured) (h : w.Books task actions) (hpoint : w.point = .draining) :
    w.drain.2.Books task (actions ++ [w.drain.1]) := by
  have hstands := h.stands
  unfold Stands at hstands
  rw [hpoint] at hstands
  obtain ⟨⟨v, hhanded, hcurrent, hholds⟩, hhand, hbeyond⟩ := hstands
  -- a call without an input leaves the course as it is
  apply h.quiet rfl rfl rfl
  cases hcall : (b.drain w.hasher).1 with
  | done answer =>
    obtain ⟨rfl, hnext⟩ := honoured.drain hholds hcall
    refine ⟨⟨v, [], hhanded, hcurrent, rfl, ?_⟩, hhand, hbeyond⟩
    unfold Behind
    rw [if_neg fun hboth => Bool.noConfusion hboth.1]
    exact ⟨rfl, hnext⟩
  | panicked =>
    refine ⟨?_, hhand, Nat.le_of_eq hbeyond⟩
    rw [hhanded]
    exact w.one_le_capacity

theorem finish (honoured : task.Honoured) (h : w.Books task actions) {hash : Digest} {last : Bool}
    (hpoint : w.point = .finishing hash last) :
    (w.finish hash last).2.Books task (actions ++ [(w.finish hash last).1]) := by
  have hstands := h.stands
  unfold Stands at hstands
  rw [hpoint] at hstands
  obtain ⟨⟨v, rest, hhanded, hcurrent, rfl, hbehind⟩, hhand, hbeyond⟩ := hstands
  apply h.quiet rfl rfl rfl
  rw [hcurrent, task.bytes_candidate]
  cases hanswer :
      (if w.strategy.commits then b.commitment (task.input v) (task.hashOf (task.input v))
        else .done (task.hashOf (task.input v))) with
  | done merged =>
    exact ⟨⟨v, rest, hhanded, honoured.ofHash_eq_share hanswer, hbehind⟩, hhand, hbeyond⟩
  | panicked =>
    refine ⟨?_, hhand, ?_⟩
    · rw [hhanded]
      exact hbehind.length_le
    · show (course w.bound actions).beyond.length ≤ 1
      rw [hbeyond]
      exact Bool.toNat_le last

/-- The number that was handed in first is merged, wherever the worker goes on. -/
theorem mergeFirst (h : w.Books task actions) {v : UInt64} {rest : List UInt64}
    {current spare : Candidate} {point : Point} (hhanded : (course w.bound actions).handed = v :: rest)
    (hcurrent : ∃ n, current = task.template.candidate n)
    (hspare : ∃ n, spare = task.template.candidate n)
    (hstands : ({ w with current, spare, hashes := w.hashes + 1, point } : Worker b).Stands task
      { course w.bound actions with
        merged := (course w.bound actions).merged ++ [v], handed := rest }) :
    ({ w with current, spare, hashes := w.hashes + 1, point } : Worker b).Books task
      (actions ++ [.merge (task.share w.strategy.commits v)]) := by
  have hcourse :
      course w.bound (actions ++ [.merge (task.share w.strategy.commits v)]) =
        { course w.bound actions with
          merged := (course w.bound actions).merged ++ [v], handed := rest } := by
    rw [course_concat]
    simp only [Course.next, hhanded, List.take_succ_cons, List.take_zero, List.drop_succ_cons,
      List.drop_zero]
  refine ⟨?_, ?_, ?_, hcurrent, hspare⟩
  · rw [hcourse]
    exact hstands
  · rw [hcourse]
    exact h.tallies.merge hhanded
  · rw [hcourse]
    -- the count runs in a word, the length of the list does not
    show w.hashes + 1 = UInt64.ofNat ((course w.bound actions).merged ++ [v]).length
    rw [h.hashes, List.length_append, UInt64.ofNat_add]
    rfl

theorem merge (h : w.Books task actions) {update : Fingerprint} {last : Bool}
    (hpoint : w.point = .merging update last) :
    (w.merge update last).2.Books task (actions ++ [(w.merge update last).1]) := by
  have hstands := h.stands
  unfold Stands at hstands
  rw [hpoint] at hstands
  obtain ⟨⟨v, rest, hhanded, rfl, hbehind⟩, hhand, hbeyond⟩ := hstands
  unfold Behind at hbehind
  cases last with
  | true =>
    rw [if_neg fun hboth => Bool.noConfusion hboth.1] at hbehind
    exact h.mergeFirst hhanded h.current h.spare ⟨hbehind.1, hhand, hbeyond, hbehind.2⟩
  | false =>
    have hnone : (course w.bound actions).beyond = [] := List.length_eq_zero_iff.mp hbeyond
    by_cases hbatched : w.strategy.batched = true
    · -- the candidates change places, so that `current` is the one that is held back again
      rw [if_pos ⟨rfl, hbatched⟩] at hbehind
      rw [merge_batched hbatched]
      exact h.mergeFirst hhanded h.spare h.current ⟨hbatched, hbehind, hhand, hnone⟩
    · rw [if_neg fun hboth => hbatched hboth.2] at hbehind
      rw [merge_single hbatched]
      exact h.mergeFirst hhanded h.current h.spare ⟨hbehind.1, hhand, hnone, hbehind.2⟩

/-! ## All steps -/

/-- **No step puts the books out of order.** -/
theorem step (honoured : task.Honoured) (h : w.Books task actions) {next : UInt64} {a : Action}
    (hstep : w.step next = some (a, w')) : w'.Books task (actions ++ [a]) := by
  have hstands := h.stands
  unfold Stands at hstands
  cases move_of_step hstep with
  | bind hpoint =>
    rw [hpoint] at hstands
    exact h.quiet rfl rfl rfl hstands
  | claim hpoint => exact h.claim hpoint next
  | submit hpoint hmade =>
    rw [← hmade]
    exact h.submit honoured hpoint
  | drain hpoint => exact h.drain honoured hpoint
  | finish hpoint => exact h.finish honoured hpoint
  | merge hpoint => exact h.merge hpoint
  | leave hpoint =>
    rw [hpoint] at hstands
    exact h.quiet rfl rfl rfl hstands
  | release hpoint =>
    rw [hpoint] at hstands
    -- the hasher may break off even as it is given up
    apply h.quiet rfl rfl rfl
    obtain ⟨hhanded, hhand, hbeyond, -⟩ := hstands
    cases b.release w.hasher with
    | done => exact ⟨hhanded, hhand, hbeyond⟩
    | panicked =>
      refine ⟨?_, hhand, Nat.le_of_eq hbeyond⟩
      rw [hhanded]
      exact Nat.zero_le _

/-! ## What the books tell -/

/-- No more numbers are open than a worker of its kind can have. -/
theorem length_open_le (h : w.Books task actions) :
    (course w.bound actions).handed.length + (course w.bound actions).inHand.length ≤ w.capacity := by
  -- one case for each kind of place: two numbers are open only in a batch that goes on
  have hstands := h.stands
  have hone := w.one_le_capacity
  unfold Stands at hstands
  cases hpoint : w.point with
  | claiming primed | submitting value primed =>
    rw [hpoint] at hstands
    cases primed with
    | false =>
      rw [hstands.1, hstands.2.1]
      simp [hone]
    | true =>
      obtain ⟨hbatched, ⟨v, hhanded, -⟩, hhand, -⟩ := hstands
      rw [hhanded, hhand, capacity, if_pos hbatched]
      simp
  | draining =>
    rw [hpoint] at hstands
    obtain ⟨⟨v, hhanded, -⟩, hhand, -⟩ := hstands
    rw [hhanded, hhand]
    exact hone
  | finishing hash last =>
    rw [hpoint] at hstands
    obtain ⟨⟨v, rest, hhanded, -, -, hbehind⟩, hhand, -⟩ := hstands
    rw [hhanded, hhand]
    exact Behind.length_le hbehind
  | merging update last =>
    rw [hpoint] at hstands
    obtain ⟨⟨v, rest, hhanded, -, hbehind⟩, hhand, -⟩ := hstands
    rw [hhanded, hhand]
    exact Behind.length_le hbehind
  | failed =>
    rw [hpoint] at hstands
    rw [hstands.2.1]
    exact hstands.1
  | binding _ _ | leaving | releasing | ended =>
    rw [hpoint] at hstands
    rw [hstands.1, hstands.2.1]
    exact Nat.zero_le _

/-- What is in hand can be read off the place of a worker. -/
theorem inHand_eq (h : w.Books task actions) : (course w.bound actions).inHand = w.point.inHand := by
  have hstands := h.stands
  unfold Stands at hstands
  cases hpoint : w.point with
  | claiming primed | submitting value primed =>
    rw [hpoint] at hstands
    cases primed with
    | false => exact hstands.2.1
    | true => exact hstands.2.2.1
  | binding _ _ | draining | finishing _ _ | merging _ _ | leaving | releasing | ended | failed =>
    rw [hpoint] at hstands
    exact hstands.2.1

/-- So can be how many numbers were taken that are not below the bound, unless the worker has failed. -/
theorem length_beyond_eq (h : w.Books task actions) :
    ∀ n ∈ w.point.surplus?, (course w.bound actions).beyond.length = n := by
  intro n hn
  have hstands := h.stands
  unfold Stands at hstands
  cases hpoint : w.point with
  | claiming primed | submitting value primed =>
    rw [hpoint] at hstands hn
    cases hn
    cases primed with
    | false => exact congrArg List.length hstands.2.2.1
    | true => exact congrArg List.length hstands.2.2.2
  | binding _ _ =>
    rw [hpoint] at hstands hn
    cases hn
    exact congrArg List.length hstands.2.2.1
  | draining | finishing _ _ | merging _ _ | ended =>
    rw [hpoint] at hstands hn
    cases hn
    exact hstands.2.2
  | leaving | releasing =>
    rw [hpoint] at hstands hn
    cases hn
    exact hstands.2.2.1
  | failed =>
    rw [hpoint] at hn
    cases hn

/-- At most one number is taken that is not below the bound. -/
theorem length_beyond_le (h : w.Books task actions) : (course w.bound actions).beyond.length ≤ 1 := by
  cases hsurplus : w.point.surplus? with
  | some n =>
    rw [h.length_beyond_eq n hsurplus]
    exact w.point.surplus?_le_one n hsurplus
  | none =>
    -- only one that has failed keeps it to itself
    have hstands := h.stands
    unfold Stands at hstands
    rw [w.point.surplus?_eq_none.mp hsurplus] at hstands
    exact hstands.2.2

/-- A worker whose books are in order does its duty. -/
theorem diligent (h : w.Books task actions) : w.Diligent task.template actions where
  current := h.current
  spare := h.spare
  submissions := by
    rw [h.tallies.submissions, h.tallies.useful_eq, ← h.inHand_eq]
    exact List.map_append.symm
  claims := by
    rw [h.tallies.useful_eq, h.tallies.excess_eq]
    exact h.tallies.claims
  excess_le := by
    rw [h.tallies.excess_eq]
    exact h.length_beyond_le
  excess_eq := by
    rw [h.tallies.excess_eq]
    exact h.length_beyond_eq

/-- A worker that has ended has merged whatever it took below its bound. -/
theorem of_ended (h : w.Books task actions) (hended : w.point = .ended) :
    (course w.bound actions).handed = [] ∧ (course w.bound actions).inHand = [] ∧
      (course w.bound actions).beyond.length = 1 := by
  have hstands := h.stands
  unfold Stands at hstands
  rw [hended] at hstands
  exact hstands

theorem submit_not_failed {commits : Bool} (steady : task.Steady commits) (h : w.Books task actions) {value : UInt64}
    {primed : Bool} (hpoint : w.point = .submitting value primed) :
    (w.submit value primed).2.point ≠ .failed := by
  have hstands := h.stands
  unfold Stands at hstands
  rw [hpoint] at hstands
  by_cases hbatched : w.strategy.batched = true
  · cases primed with
    | true =>
      obtain ⟨-, ⟨v, -, -, hholds⟩, -⟩ := hstands
      rw [submit_advance hbatched rfl]
      exact Point.after_ne_failed (steady.advance hholds _) fun _ => Point.noConfusion
    | false =>
      rw [submit_prime hbatched rfl]
      exact Point.after_ne_failed (steady.prime hstands.2.2.2 _) fun _ => Point.noConfusion
  · cases primed with
    | true => exact absurd hstands.1 hbatched
    | false =>
      rw [submit_hash hbatched rfl]
      exact Point.after_ne_failed (steady.hash hstands.2.2.2 _) fun _ => Point.noConfusion

/-- If calls do not break off, a worker does not either. -/
theorem not_failed (steady : task.Steady w.strategy.commits) (h : w.Books task actions) {next : UInt64} {a : Action}
    (hstep : w.step next = some (a, w')) : w'.point ≠ .failed := by
  have hstands := h.stands
  unfold Stands at hstands
  cases move_of_step hstep with
  | bind hpoint => exact Point.noConfusion
  | claim hpoint =>
    show (if next < w.bound then _ else if _ then _ else _) ≠ Point.failed
    split
    · exact Point.noConfusion
    · split <;> exact Point.noConfusion
  | submit hpoint hmade => exact h.submit_not_failed steady hpoint
  | drain hpoint =>
    rw [hpoint] at hstands
    obtain ⟨⟨v, -, -, hholds⟩, -⟩ := hstands
    apply Point.after_ne_failed (steady.drain hholds)
    intro answer
    cases answer <;> exact Point.noConfusion
  | finish hpoint =>
    -- with or without a commitment
    apply Point.after_ne_failed _ fun _ => Point.noConfusion
    split
    case isTrue hcommits => exact steady.commitment hcommits _ _
    case isFalse => exact nofun
  | merge hpoint =>
    show (if _ then _ else if w.strategy.batched then _ else _ : Worker b).point ≠ .failed
    split
    · exact Point.noConfusion
    · split <;> exact Point.noConfusion
  | leave hpoint => exact Point.noConfusion
  | release hpoint =>
    rw [hpoint] at hstands
    exact Point.after_ne_failed (steady.release hstands.2.2.2) fun _ => Point.noConfusion

end Books

end Worker

end NonceSweep
