import NonceSweep.Proofs.Pool.Numbers
import NonceSweep.Proofs.Work.Patching
import Mathlib.Algebra.Order.BigOperators.Group.List

/-!
# What workers do, whatever their hashers do

Hashers may answer with anything, or break off. Even so a worker hands in every number below its bound that
it takes, as soon as it has taken it, and takes no other once it has found a number that is not below the
bound. `Worker.Diligent` says so of one worker and `Pool.Orderly` of a pool; no assumption on the backend is
made.

## Main results

- `Worker.Diligent.step`, `Pool.Orderly.step`, `Pool.Orderly.of_steps`: what steps and runs preserve
- `Pool.Orderly.submissions_perm_of_ended`: what is handed in if any worker at all has ended
- `Pool.Orderly.taken_eq_of_ended`: how many numbers are taken if all workers have ended
-/

namespace NonceSweep

variable {b : Backend}

/-- The input for a number: the template with the low half of the number in its field. -/
def Template.input (template : Template) (value : UInt64) : ByteArray :=
  (template.candidate value.toUInt32).bytes

/-- Numbers that fit the nonce field make different inputs. -/
theorem Template.input_injective (template : Template) {m n : UInt64} (hm : m.toNat < 2 ^ 32)
    (hn : n.toNat < 2 ^ 32) (h : template.input m = template.input n) : m = n := by
  have hnonce := congrArg UInt32.toNat (template.candidate_injective h)
  rw [UInt64.toNat_toUInt32, UInt64.toNat_toUInt32, Nat.mod_eq_of_lt hm,
    Nat.mod_eq_of_lt hn] at hnonce
  exact UInt64.toNat_inj.mp hnonce

theorem Template.nodup_inputs (template : Template) {count : Nat} (hfits : count ≤ 2 ^ 32) :
    ((ascending count).map template.input).Nodup := by
  apply List.Nodup.map_on _ (nodup_ascending (by omega))
  intro m hm n hn heq
  rw [mem_ascending (by omega)] at hm hn
  exact template.input_injective (by omega) (by omega) heq

/-! ## Points -/

namespace Point

/-- A number that has been taken and not yet handed in. -/
def inHand : Point → List UInt64
  | .submitting value _ => [value]
  | _ => []

/-- How many numbers not below the bound a worker at this point has taken. Of one that has broken off this
    is not known. -/
def surplus? : Point → Option Nat
  | .binding .. | .claiming _ | .submitting .. => some 0
  | .finishing _ last | .merging _ last => some last.toNat
  | .draining | .leaving | .releasing | .ended => some 1
  | .failed => none

theorem surplus?_le_one (point : Point) : ∀ n ∈ point.surplus?, n ≤ 1 := by
  intro n hn
  cases point with
  | finishing _ last | merging _ last =>
    rw [← Option.some.inj hn]
    exact Bool.toNat_le last
  | failed => cases hn
  | binding _ _ | claiming _ | submitting _ _ => exact Option.some.inj hn ▸ Nat.zero_le 1
  | draining | leaving | releasing | ended => exact Option.some.inj hn ▸ Nat.le_refl 1

theorem surplus?_eq_none (point : Point) : point.surplus? = none ↔ point = .failed := by
  cases point <;> simp [surplus?]

theorem inHand_after {α : Type} {a : Attempt α} {next : α → Point}
    (h : ∀ value, (next value).inHand = []) : (after a next).inHand = [] := by
  cases a with
  | done value => exact h value
  | panicked => rfl

theorem surplus?_after {α : Type} {a : Attempt α} {next : α → Point} (surplus : Nat)
    (h : ∀ value, (next value).surplus? = some surplus) :
    ∀ n ∈ (after a next).surplus?, n = surplus := by
  intro n hn
  cases a with
  | done value =>
    change n ∈ (next value).surplus? at hn
    rw [h value] at hn
    exact (Option.some.inj hn).symm
  | panicked => cases hn

end Point

/-! ## One worker -/

/-- **A worker that has made these actions does its duty**: it has handed in the numbers below its bound,
    but for one that it has in hand, and took at most one other, after all of them. -/
structure Worker.Diligent (template : Template) (w : Worker b) (actions : List Action) : Prop where
  current : ∃ n, w.current = template.candidate n
  spare : ∃ n, w.spare = template.candidate n
  submissions : submissions actions ++ w.point.inHand.map template.input =
    (useful w.bound actions).map template.input
  claims : claims actions = useful w.bound actions ++ excess w.bound actions
  excess_le : (excess w.bound actions).length ≤ 1
  excess_eq : ∀ n ∈ w.point.surplus?, (excess w.bound actions).length = n

namespace Worker.Diligent

variable {template : Template} {w w' : Worker b} {actions : List Action}

theorem new {index : Nat} {strategy : Strategy} {bound : UInt64} {hasher : b.Hasher} {point : Point}
    (hpoint : point = .claiming false ∨ ∃ processor allowed, point = .binding processor allowed) :
    (Worker.new index strategy bound hasher template point).Diligent template [] := by
  refine ⟨⟨0, rfl⟩, ⟨0, rfl⟩, ?_, rfl, Nat.zero_le 1, ?_⟩
  · rcases hpoint with rfl | ⟨processor, allowed, rfl⟩ <;> rfl
  · intro n hn
    rcases hpoint with rfl | ⟨processor, allowed, rfl⟩ <;> exact Option.some.inj hn

/-- A worker goes on to another place without taking or handing in anything. -/
theorem quiet (h : w.Diligent template actions) {a : Action} {hasher : b.Hasher}
    {current spare : Candidate} {hashes : UInt64} {point : Point} (hclaimed : a.claimed? = none)
    (hsubmitted : a.submitted? = none) (hcurrent : ∃ n, current = template.candidate n)
    (hspare : ∃ n, spare = template.candidate n) (hbefore : w.point.inHand = [])
    (hafter : point.inHand = []) (hsurplus : ∀ n ∈ point.surplus?, n ∈ w.point.surplus?) :
    ({ w with hasher, current, spare, hashes, point } : Worker b).Diligent template
      (actions ++ [a]) := by
  have huseful := useful_concat_of_none w.bound actions hclaimed
  have hexcess := excess_concat_of_none w.bound actions hclaimed
  refine ⟨hcurrent, hspare, ?_, ?_, ?_, ?_⟩
  · have hsubmissions := h.submissions
    rw [hbefore] at hsubmissions
    rw [hafter, huseful, ← hsubmissions]
    simp [NonceSweep.submissions, hsubmitted]
  · rw [huseful, hexcess, ← h.claims]
    simp [NonceSweep.claims, hclaimed]
  · rw [hexcess]
    exact h.excess_le
  · intro n hn
    rw [hexcess]
    exact h.excess_eq n (hsurplus n hn)

/-- A worker that can claim has taken no number in excess. -/
theorem claim (h : w.Diligent template actions) {primed : Bool} (hpoint : w.point = .claiming primed)
    (next : UInt64) :
    ({ w with
      point :=
        if next < w.bound then .submitting next primed
        else if primed then .draining else .leaving } : Worker b).Diligent template
      (actions ++ [.claim next]) := by
  have hnone : excess w.bound actions = [] := by
    have hlength := h.excess_eq 0 (by rw [hpoint]; rfl)
    exact List.length_eq_zero_iff.mp hlength
  have hsubmissions : NonceSweep.submissions (actions ++ [.claim next]) =
      (useful w.bound actions).map template.input := by
    have hbefore := h.submissions
    rw [hpoint] at hbefore
    rw [← hbefore]
    simp [NonceSweep.submissions, Action.submitted?, Point.inHand]
  have hclaims : NonceSweep.claims (actions ++ [.claim next]) = useful w.bound actions ++ [next] := by
    have hbefore := h.claims
    rw [hnone, List.append_nil] at hbefore
    rw [NonceSweep.claims, List.filterMap_append, ← NonceSweep.claims, hbefore]
    rfl
  have huseful := useful_concat_claim w.bound actions next
  have hexcess := excess_concat_claim w.bound actions next
  rw [hnone, List.nil_append] at hexcess
  by_cases hbelow : next < w.bound
  · -- the number is in hand from now on
    rw [if_pos hbelow] at huseful hexcess ⊢
    refine ⟨h.current, h.spare, ?_, ?_, ?_, ?_⟩
    · rw [hsubmissions, huseful, List.map_append]
      rfl
    · rw [hclaims, huseful, hexcess, List.append_nil]
    · rw [hexcess]
      exact Nat.zero_le 1
    · intro n hn
      rw [hexcess]
      exact Option.some.inj hn
  · -- the number is in excess, and no other will be
    rw [if_neg hbelow] at huseful hexcess ⊢
    rw [List.append_nil] at huseful
    refine ⟨h.current, h.spare, ?_, ?_, ?_, ?_⟩
    · rw [hsubmissions, huseful]
      cases primed <;> exact List.append_nil _
    · rw [hclaims, huseful, hexcess]
    · rw [hexcess]
      exact Nat.le_refl 1
    · intro n hn
      rw [hexcess]
      cases primed <;> exact Option.some.inj hn

/-- The number in hand is handed in by some call, which may break off. -/
theorem handIn (h : w.Diligent template actions) {value : UInt64} {primed : Bool} {made : Call}
    {hasher : b.Hasher} {current spare : Candidate} {point : Point}
    (hpoint : w.point = .submitting value primed) (hmade : made.input? = some (template.input value))
    (hcurrent : ∃ n, current = template.candidate n) (hspare : ∃ n, spare = template.candidate n)
    (hafter : point.inHand = []) (hsurplus : ∀ n ∈ point.surplus?, n = 0) :
    ({ w with hasher, current, spare, point } : Worker b).Diligent template
      (actions ++ [.call made]) := by
  have huseful := useful_concat_of_none w.bound actions (a := .call made) rfl
  have hexcess := excess_concat_of_none w.bound actions (a := .call made) rfl
  refine ⟨hcurrent, hspare, ?_, ?_, ?_, ?_⟩
  · have hsubmissions := h.submissions
    rw [hpoint] at hsubmissions
    rw [hafter, huseful, ← hsubmissions]
    simp [NonceSweep.submissions, Action.submitted?, hmade, Point.inHand]
  · rw [huseful, hexcess, ← h.claims]
    simp [NonceSweep.claims, Action.claimed?]
  · rw [hexcess]
    exact h.excess_le
  · intro n hn
    rw [hexcess, hsurplus n hn]
    exact h.excess_eq 0 (by rw [hpoint]; rfl)

theorem submit (h : w.Diligent template actions) {value : UInt64} {primed : Bool}
    (hpoint : w.point = .submitting value primed) :
    (w.submit value primed).2.Diligent template (actions ++ [(w.submit value primed).1]) := by
  have hcurrent := template.patch_of_candidate h.current value.toUInt32
  have hspare := template.patch_of_candidate h.spare value.toUInt32
  unfold Worker.submit
  split
  · split
    · rw [hspare]
      exact h.handIn hpoint rfl h.current ⟨_, rfl⟩ (Point.inHand_after fun _ => rfl)
        (Point.surplus?_after 0 fun _ => rfl)
    · rw [hcurrent]
      exact h.handIn hpoint rfl ⟨_, rfl⟩ h.spare (Point.inHand_after fun _ => rfl)
        (Point.surplus?_after 0 fun _ => rfl)
  · rw [hcurrent]
    exact h.handIn hpoint rfl ⟨_, rfl⟩ h.spare (Point.inHand_after fun _ => rfl)
      (Point.surplus?_after 0 fun _ => rfl)

theorem merge (h : w.Diligent template actions) {update : Fingerprint} {last : Bool}
    (hpoint : w.point = .merging update last) :
    (w.merge update last).2.Diligent template (actions ++ [(w.merge update last).1]) := by
  have hbefore : w.point.inHand = [] := by rw [hpoint]; rfl
  unfold Worker.merge
  cases last with
  | true =>
    apply h.quiet rfl rfl h.current h.spare hbefore rfl
    rw [hpoint]
    exact fun n hn => hn
  | false =>
    cases w.strategy.batched with
    | true =>
      apply h.quiet rfl rfl h.spare h.current hbefore rfl
      rw [hpoint]
      exact fun n hn => hn
    | false =>
      apply h.quiet rfl rfl h.current h.spare hbefore rfl
      rw [hpoint]
      exact fun n hn => hn

/-- **Every step of a worker is in line with its duty.** -/
theorem step (h : w.Diligent template actions) {next : UInt64} {a : Action}
    (hstep : w.step next = some (a, w')) : w'.Diligent template (actions ++ [a]) := by
  cases move_of_step hstep with
  | claim hpoint => exact h.claim hpoint next
  | submit hpoint hmade =>
    rw [← hmade]
    exact h.submit hpoint
  | merge hpoint => exact h.merge hpoint
  | drain hpoint =>
    apply h.quiet rfl rfl h.current h.spare (by rw [hpoint]; rfl)
    · exact Point.inHand_after fun answer => by cases answer <;> rfl
    · intro n hn
      have hone := Point.surplus?_after 1 (fun answer => by cases answer <;> rfl) n hn
      rw [hpoint, hone]
      rfl
  | @finish hash last hpoint =>
    apply h.quiet rfl rfl h.current h.spare (by rw [hpoint]; rfl)
    · exact Point.inHand_after fun _ => rfl
    · intro n hn
      have hsame := Point.surplus?_after last.toNat (fun _ => rfl) n hn
      rw [hpoint, hsame]
      rfl
  | release hpoint =>
    apply h.quiet rfl rfl h.current h.spare (by rw [hpoint]; rfl)
    · exact Point.inHand_after fun _ => rfl
    · intro n hn
      have hone := Point.surplus?_after 1 (fun _ => rfl) n hn
      rw [hpoint, hone]
      rfl
  | bind hpoint | leave hpoint =>
    apply h.quiet rfl rfl h.current h.spare (by rw [hpoint]; rfl) rfl
    rw [hpoint]
    exact fun n hn => hn

end Worker.Diligent

/-! ## All workers -/

/-- Worker `i` of a pool has the bound of all, and does its duty. -/
structure Worker.OnDuty (template : Template) (bound : UInt64) (i : Nat) (w : Worker b)
    (actions : List Action) : Prop where
  index_eq : w.index = i
  bound_eq : w.bound = bound
  diligent : w.Diligent template actions

theorem Worker.OnDuty.step {template : Template} {bound next : UInt64} {i : Nat} {w w' : Worker b}
    {actions : List Action} {a : Action} (h : w.OnDuty template bound i actions)
    (hstep : w.step next = some (a, w')) : w'.OnDuty template bound i (actions ++ [a]) := by
  obtain ⟨hindex, -, hbound⟩ := Worker.step_frame hstep
  exact ⟨hindex.trans h.index_eq, hbound.trans h.bound_eq, h.diligent.step hstep⟩

namespace Pool

/-- **A pool that has made these actions is in order**: its workers are on duty, and the numbers that they
    have taken have not started again at zero. -/
structure Orderly (template : Template) (bound : UInt64) (count : Nat)
    (actions : List (Nat × Action)) (p : Pool b) : Prop where
  length_eq : p.workers.length = count
  workers : ∀ (i : Nat) (w : Worker b), p.workers[i]? = some w →
    w.OnDuty template bound i (own i actions)
  named : ∀ step ∈ actions, step.1 < count
  dispensed : p.Dispensed actions
  taken_le : taken actions ≤ bound.toNat + count

namespace Orderly

variable {template : Template} {bound : UInt64} {count : Nat} {actions : List (Nat × Action)}
  {p q : Pool b}

/-- New workers, with numbers counted from zero. -/
theorem start {workers : List (Worker b)} (hlength : workers.length = count)
    (hworkers : ∀ (i : Nat) (w : Worker b), workers[i]? = some w → w.OnDuty template bound i []) :
    (⟨workers, .startingAt 0⟩ : Pool b).Orderly template bound count [] :=
  ⟨hlength, hworkers, fun _ hmem => absurd hmem List.not_mem_nil, ⟨rfl, rfl⟩, Nat.zero_le _⟩

theorem exists_worker (h : p.Orderly template bound count actions) {i : Nat} (hi : i < count) :
    ∃ w : Worker b, p.workers[i]? = some w ∧ w.OnDuty template bound i (own i actions) := by
  have hlt : i < p.workers.length := h.length_eq ▸ hi
  have hw : p.workers[i]? = some p.workers[i] := List.getElem?_eq_getElem hlt
  exact ⟨_, hw, h.workers i _ hw⟩

/-- So few numbers are taken that they do not start again at zero: each worker has learned at most once
    that there are no more. -/
theorem taken_le_add (hdispensed : p.Dispensed actions) (hlength : p.workers.length = count)
    (hworkers : ∀ (i : Nat) (w : Worker b), p.workers[i]? = some w →
      w.OnDuty template bound i (own i actions))
    (hnamed : ∀ step ∈ actions, step.1 < count) (hsize : taken actions ≤ 2 ^ 64) :
    taken actions ≤ bound.toNat + count := by
  have hone : ∀ n ∈ (List.range count).map fun i => (excess bound (own i actions)).length,
      n ≤ 1 := by
    intro n hn
    obtain ⟨i, hi, rfl⟩ := List.mem_map.mp hn
    have hlt : i < p.workers.length := hlength ▸ List.mem_range.mp hi
    have honduty := hworkers i _ (List.getElem?_eq_getElem hlt)
    rw [← honduty.bound_eq]
    exact honduty.diligent.excess_le
  have hsum := List.sum_le_card_nsmul _ 1 hone
  have htotal :
      ((List.range count).map fun i => (excess bound (own i actions)).length).sum ≤ count := by
    simpa using hsum
  have htaken := hdispensed.taken_eq_add hsize hnamed bound
  omega

/-- **Every step of a pool keeps it in order**, as long as there is room for the numbers. -/
theorem step (hroom : bound.toNat + count < 2 ^ 64) (h : p.Orderly template bound count actions)
    {i : Nat} {a : Action} (hstep : p.step i = some (a, q)) :
    q.Orderly template bound count (actions ++ [(i, a)]) := by
  obtain ⟨hdispensed, -, htaken⟩ := h.dispensed.step hstep
  have hworkers := workers_step Worker.OnDuty.step h.workers hstep
  obtain ⟨w, w', hw, -, rfl⟩ := step_eq_some hstep
  have hi : i < count := h.length_eq ▸ (List.getElem?_eq_some_iff.mp hw).1
  have hlength : (p.workers.set i w').length = count := by
    rw [List.length_set]
    exact h.length_eq
  have hnamed : ∀ step ∈ actions ++ [(i, a)], step.1 < count := by
    intro step hmem
    rcases List.mem_append.mp hmem with hold | hnew
    · exact h.named step hold
    · rw [List.mem_singleton.mp hnew]
      exact hi
  -- one more than before still fits, from which a better bound follows in turn
  have hsize : taken (actions ++ [(i, a)]) ≤ 2 ^ 64 := by
    have hbefore := h.taken_le
    omega
  exact ⟨hlength, hworkers, hnamed, hdispensed,
    taken_le_add hdispensed hlength hworkers hnamed hsize⟩

/-- **Every run keeps a pool in order.** -/
theorem of_steps (hroom : bound.toNat + count < 2 ^ 64)
    (hstart : p.Orderly template bound count []) (hsteps : Steps p actions q) :
    q.Orderly template bound count actions :=
  hsteps.induction hstart fun h hstep => h.step hroom hstep

/-! ## Workers that have stopped -/

/-- A worker that has ended has taken one number in excess. -/
theorem length_excess_of_ended (h : p.Orderly template bound count actions) {i : Nat} {w : Worker b}
    (hw : p.workers[i]? = some w) (hended : w.point = .ended) :
    (excess bound (own i actions)).length = 1 := by
  have honduty := h.workers i w hw
  rw [← honduty.bound_eq]
  exact honduty.diligent.excess_eq 1 (by rw [hended]; rfl)

/-- The number that it has taken in excess is the last one. -/
theorem claims_eq_of_ended (h : p.Orderly template bound count actions) {i : Nat} {w : Worker b}
    (hw : p.workers[i]? = some w) (hended : w.point = .ended) :
    ∃ below last, claims (own i actions) = below ++ [last] ∧ (∀ v ∈ below, v < bound) ∧ bound ≤ last := by
  obtain ⟨last, hlast⟩ := List.length_eq_one_iff.mp (h.length_excess_of_ended hw hended)
  have honduty := h.workers i w hw
  have hclaims := honduty.diligent.claims
  rw [honduty.bound_eq, hlast] at hclaims
  have hmem : last ∈ excess bound (own i actions) := by
    rw [hlast]
    exact List.mem_singleton_self last
  exact ⟨_, last, hclaims, fun v hv => of_decide_eq_true (List.mem_filter.mp hv).2,
    of_decide_eq_true (List.mem_filter.mp hmem).2⟩

section Room

variable (hroom : bound.toNat + count < 2 ^ 64) (h : p.Orderly template bound count actions)

include hroom h

theorem taken_le_size : taken actions ≤ 2 ^ 64 := by
  have hle := h.taken_le
  omega

/-- The next number tells how many were taken before it. -/
theorem toNat_next : p.ledger.dispenser.next.toNat = taken actions := by
  have hle := h.taken_le
  have hsize : UInt64.size = 2 ^ 64 := rfl
  rw [h.dispensed.next_eq]
  exact UInt64.toNat_ofNat_of_lt' (by omega)

/-- Each number before the next one was taken by one worker, and by no other. -/
theorem existsUnique_claim {v : UInt64} (hv : v < p.ledger.dispenser.next) :
    ∃! i, v ∈ claims (own i actions) := by
  apply h.dispensed.existsUnique_claim (h.taken_le_size hroom) h.named
  rw [← h.toNat_next hroom]
  exact hv

/-- No other number was taken. -/
theorem lt_next_of_mem_claims {i : Nat} {v : UInt64} (hv : v ∈ claims (own i actions)) :
    v < p.ledger.dispenser.next := by
  have hall : v ∈ claims (everyone actions) := by
    obtain ⟨a, ha, hclaimed⟩ := List.mem_filterMap.mp hv
    obtain ⟨step, hstep, rfl⟩ := List.mem_map.mp ha
    exact List.mem_filterMap.mpr
      ⟨step.2, List.mem_map_of_mem (List.mem_of_mem_filter hstep), hclaimed⟩
  rw [h.dispensed.claims_eq, mem_ascending (h.taken_le_size hroom), ← h.toNat_next hroom] at hall
  exact hall

/-- The first numbers below the bound are what the workers have taken of them. -/
theorem perm_useful :
    (ascending (min (taken actions) bound.toNat)).Perm
      ((List.range count).flatMap fun i => useful bound (own i actions)) := by
  have hall := (filterMap_everyone_perm Action.claimed? h.named).filter (· < bound)
  rw [List.filter_flatMap] at hall
  rw [← h.dispensed.useful_eq (h.taken_le_size hroom)]
  exact hall

/-- If any worker has ended, the numbers below the bound have all been taken. -/
theorem lt_taken_of_ended {w : Worker b} (hw : w ∈ p.workers) (hended : w.point = .ended) :
    bound.toNat < taken actions := by
  obtain ⟨i, hi⟩ := List.getElem?_of_mem hw
  have hone := h.length_excess_of_ended hi hended
  have hcount : i < count := h.length_eq ▸ (List.getElem?_eq_some_iff.mp hi).1
  -- its number in excess is one of all that were taken
  have hmem : 1 ∈ (List.range count).map fun i => (excess bound (own i actions)).length :=
    List.mem_map.mpr ⟨i, List.mem_range.mpr hcount, hone⟩
  have hle := List.le_sum_of_mem hmem
  have htaken := h.dispensed.taken_eq_add (h.taken_le_size hroom) h.named bound
  omega

/-- If all workers have ended, each has taken one number more than those below the bound. -/
theorem taken_eq_of_ended (hcount : 0 < count) (hended : ∀ w ∈ p.workers, w.point = .ended) :
    taken actions = bound.toNat + count := by
  have hexcess : (List.range count).map (fun i => (excess bound (own i actions)).length) =
      (List.range count).map fun _ => 1 := by
    apply List.map_congr_left
    intro i hi
    obtain ⟨w, hw, -⟩ := h.exists_worker (List.mem_range.mp hi)
    exact h.length_excess_of_ended hw (hended w (List.mem_of_getElem? hw))
  have hones : ((List.range count).map fun _ => 1).sum = count := by simp
  have htaken := h.dispensed.taken_eq_add (h.taken_le_size hroom) h.named bound
  rw [hexcess, hones] at htaken
  omega

/-- **If any worker has ended, each number below the bound has been handed in once**, whatever has become
    of the other workers. -/
theorem submissions_perm_of_ended (hsettled : p.Settled) (hended : ∃ w ∈ p.workers, w.point = .ended) :
    (submissions (everyone actions)).Perm ((ascending bound.toNat).map template.input) := by
  obtain ⟨w, hw, hended⟩ := hended
  have hlt := h.lt_taken_of_ended hroom hw hended
  have heach : ∀ i ∈ List.range count, (own i actions).filterMap Action.submitted? =
      (useful bound (own i actions)).map template.input := by
    intro i hi
    obtain ⟨u, hu, honduty⟩ := h.exists_worker (List.mem_range.mp hi)
    have hsubmissions := honduty.diligent.submissions
    -- nothing is in the hands of a worker that has stopped
    have hhand : u.point.inHand = [] := by
      rcases hsettled u (List.mem_of_getElem? hu) with hpoint | hpoint <;> rw [hpoint] <;> rfl
    rw [hhand, List.map_nil, List.append_nil, honduty.bound_eq] at hsubmissions
    exact hsubmissions
  have hall := filterMap_everyone_perm Action.submitted? h.named
  rw [List.flatMap_congr heach, ← List.map_flatMap] at hall
  have huseful := h.perm_useful hroom
  rw [Nat.min_eq_right (Nat.le_of_lt hlt)] at huseful
  exact hall.trans (huseful.map template.input).symm

/-- If any worker has ended, each number below the bound has been handed in by one worker, and by no
    other. -/
theorem existsUnique_worker_of_ended (hfits : bound.toNat ≤ 2 ^ 32) (hsettled : p.Settled)
    (hended : ∃ w ∈ p.workers, w.point = .ended) {value : UInt64} (hvalue : value < bound) :
    ∃! i, template.input value ∈ submissions (own i actions) := by
  have hperm := h.submissions_perm_of_ended hroom hsettled hended
  have hnodup := hperm.nodup_iff.mpr (template.nodup_inputs hfits)
  apply existsUnique_own Action.submitted? h.named hnodup
  show template.input value ∈ submissions (everyone actions)
  rw [hperm.mem_iff]
  exact List.mem_map_of_mem ((mem_ascending (by omega)).mpr (UInt64.lt_iff_toNat_lt.mp hvalue))

end Room

end Orderly

end Pool

end NonceSweep
