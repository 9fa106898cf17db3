import Orly.EventRuns
import Orly.ThreadTotals

/-!
# The fence between promotions and pauses

A promoter announces its hold between two looks at the pause count; a pauser announces
itself and then waits until it sees no holds.  Every look and every announcement is one
atomic step, and any number of promoters and pausers take theirs in any order.
-/

namespace Orly

open ThreadTotals

/-- Where a promoter is, in `TryHoldForPromotion` or with the hold it was granted. -/
inductive PromoterPlace where
  | idle
  | sawNoPause
  | announced
  | backingOut
  | holding
  | peeked
  | popped
deriving DecidableEq

/-- What a promoter at this place adds to `PromotionHoldCount`. -/
def PromoterPlace.holds : PromoterPlace → Nat
  | .idle => 0
  | .sawNoPause => 0
  | _ => 1

/-- A hold has been granted and not dropped. -/
def PromoterPlace.isGranted : PromoterPlace → Bool
  | .holding => true
  | .peeked => true
  | .popped => true
  | _ => false

/-- Where a pauser is. -/
inductive PauserPlace where
  | idle
  | waiting
  | sawNoHolds
  | paused
deriving DecidableEq

/-- What a pauser at this place adds to `PauseCount`. -/
def PauserPlace.pauses : PauserPlace → Nat
  | .idle => 0
  | _ => 1

/-- The pauser has seen no holds since its `BeginPause`. -/
def PauserPlace.isFenced : PauserPlace → Bool
  | .sawNoHolds => true
  | .paused => true
  | _ => false

/-- The atomic steps of a promoter. -/
inductive PromoterAction where
  | firstLook
  | announce
  | secondLook
  | withdraw
  | peek
  | pop
  | release

/-- The atomic steps of a pauser. -/
inductive PauserAction where
  | beginPause
  | lookForHolds
  | commit
  | endPause

/-- The counters of a repo's fence and the threads that meet there. -/
structure PromotionFence (Promoter Pauser : Type) where
  promotionHoldCount : Nat
  pauseCount : Nat
  promoter : Promoter → PromoterPlace
  pauser : Pauser → PauserPlace

inductive FenceEvent (Promoter Pauser : Type) where
  | promoter (thread : Promoter) (action : PromoterAction)
  | pauser (thread : Pauser) (action : PauserAction)

namespace PromotionFence

variable {Promoter Pauser : Type} [DecidableEq Promoter] [DecidableEq Pauser]
  (fence : PromotionFence Promoter Pauser)

omit [DecidableEq Promoter] [DecidableEq Pauser] in
def new : PromotionFence Promoter Pauser where
  promotionHoldCount := 0
  pauseCount := 0
  promoter := fun _ => .idle
  pauser := fun _ => .idle

/-- A promoter moves, and leaves this count of holds. -/
def movePromoter (thread : Promoter)
    (place : PromoterPlace) (holdCount : Nat) : PromotionFence Promoter Pauser :=
  { fence with
    promotionHoldCount := holdCount
    promoter := Function.update fence.promoter thread place }

/-- A pauser moves, and leaves this count of pauses. -/
def movePauser (thread : Pauser)
    (place : PauserPlace) (pauseCount : Nat) : PromotionFence Promoter Pauser :=
  { fence with
    pauseCount := pauseCount
    pauser := Function.update fence.pauser thread place }

/-- A promoter's next step, if it is one its program takes here. -/
def promoterStep (thread : Promoter) :
    PromoterAction → PromoterPlace → Option (PromotionFence Promoter Pauser)
  | .firstLook, .idle =>
    let place := if fence.pauseCount ≠ 0 then .idle else .sawNoPause
    some (fence.movePromoter thread place fence.promotionHoldCount)
  | .announce, .sawNoPause =>
    some (fence.movePromoter thread .announced (fence.promotionHoldCount + 1))
  | .secondLook, .announced =>
    let place := if fence.pauseCount ≠ 0 then .backingOut else .holding
    some (fence.movePromoter thread place fence.promotionHoldCount)
  | .withdraw, .backingOut =>
    some (fence.movePromoter thread .idle (fence.promotionHoldCount - 1))
  | .peek, .holding => some (fence.movePromoter thread .peeked fence.promotionHoldCount)
  | .pop, .peeked => some (fence.movePromoter thread .popped fence.promotionHoldCount)
  | .release, place =>
    if place.isGranted then
      some (fence.movePromoter thread .idle (fence.promotionHoldCount - 1))
    else
      none
  | _, _ => none

/-- A pauser's next step, if it is one its program takes here. -/
def pauserStep (thread : Pauser) :
    PauserAction → PauserPlace → Option (PromotionFence Promoter Pauser)
  | .beginPause, .idle => some (fence.movePauser thread .waiting (fence.pauseCount + 1))
  | .lookForHolds, .waiting =>
    let place := if fence.promotionHoldCount ≠ 0 then .waiting else .sawNoHolds
    some (fence.movePauser thread place fence.pauseCount)
  | .commit, .sawNoHolds => some (fence.movePauser thread .paused fence.pauseCount)
  | .endPause, place =>
    if place = .idle then none else some (fence.movePauser thread .idle (fence.pauseCount - 1))
  | _, _ => none

def step : FenceEvent Promoter Pauser → Option (PromotionFence Promoter Pauser)
  | .promoter thread action => fence.promoterStep thread action (fence.promoter thread)
  | .pauser thread action => fence.pauserStep thread action (fence.pauser thread)

/-- The fence of every interleaving. -/
abbrev Reached : Prop :=
  EventRuns.Reaches step (fun _ _ => True) new fence

/-- No thread is in the middle of anything. -/
def AllDone : Prop :=
  (∀ thread, fence.promoter thread = .idle) ∧ ∀ thread, fence.pauser thread = .idle

section Soundness

variable [Fintype Promoter] [Fintype Pauser]

omit [DecidableEq Promoter] [DecidableEq Pauser] in
/-- The counters count the threads, and a fenced pauser keeps every promoter out. -/
structure Sound (fence : PromotionFence Promoter Pauser) : Prop where
  holds : fence.promotionHoldCount = total PromoterPlace.holds fence.promoter
  pauses : fence.pauseCount = total PauserPlace.pauses fence.pauser
  fenced : ∀ pauser promoter, (fence.pauser pauser).isFenced = true →
    (fence.promoter promoter).isGranted = false

omit [DecidableEq Promoter] [DecidableEq Pauser] in
theorem sound_new : Sound (new : PromotionFence Promoter Pauser) where
  holds := (total_eq_zero_iff.mpr fun _ => rfl).symm
  pauses := (total_eq_zero_iff.mpr fun _ => rfl).symm
  fenced := fun _ _ isFenced => Bool.noConfusion isFenced

variable {fence after : PromotionFence Promoter Pauser} {promoter : Promoter} {pauser : Pauser}

theorem holds_of_isGranted {place : PromoterPlace} (granted : place.isGranted = true) :
    place.holds = 1 := by
  cases place <;> first | rfl | contradiction

theorem pauses_of_isFenced {place : PauserPlace} (isFenced : place.isFenced = true) :
    place.pauses = 1 := by
  cases place <;> first | rfl | contradiction

omit [DecidableEq Promoter] [DecidableEq Pauser] in
/-- A hold that has been granted is seen. -/
theorem Sound.hold_seen
    (sound : Sound fence) (granted : (fence.promoter promoter).isGranted = true) :
    fence.promotionHoldCount ≠ 0 := by
  have counted := holds_of_isGranted granted
  have least := le_total PromoterPlace.holds fence.promoter promoter
  rw [sound.holds]
  omega

omit [DecidableEq Promoter] [DecidableEq Pauser] in
/-- A pauser that is under way is seen. -/
theorem Sound.pause_seen (sound : Sound fence) (isFenced : (fence.pauser pauser).isFenced = true) :
    fence.pauseCount ≠ 0 := by
  have counted := pauses_of_isFenced isFenced
  have least := le_total PauserPlace.pauses fence.pauser pauser
  rw [sound.pauses]
  omega

omit [DecidableEq Pauser] in
/-- A promoter moves to where it has a hold only if it had one, or no pauser is fenced. -/
theorem Sound.movePromoter {place : PromoterPlace} {holdCount : Nat} (sound : Sound fence)
    (moves : holdCount + (fence.promoter promoter).holds = fence.promotionHoldCount + place.holds)
    (granted : place.isGranted = true →
      (fence.promoter promoter).isGranted = true ∨ fence.pauseCount = 0) :
    Sound (fence.movePromoter promoter place holdCount) where
  holds := by
    have changed := total_update PromoterPlace.holds fence.promoter promoter place
    have counted := sound.holds
    simp only [PromotionFence.movePromoter]
    omega
  pauses := sound.pauses
  fenced := by
    intro pauser other isFenced
    by_cases same : other = promoter
    · subst same
      simp only [PromotionFence.movePromoter, Function.update_self]
      cases isGranted : place.isGranted with
      | false => rfl
      | true =>
        rcases granted isGranted with had | noPause
        · exact absurd had (Bool.not_eq_true _ ▸ sound.fenced pauser other isFenced)
        · exact absurd noPause (sound.pause_seen isFenced)
    · simp only [PromotionFence.movePromoter, Function.update_of_ne same]
      exact sound.fenced pauser other isFenced

omit [DecidableEq Promoter] in
/-- A pauser becomes fenced only when there are no holds. -/
theorem Sound.movePauser {place : PauserPlace} {pauseCount : Nat} (sound : Sound fence)
    (moves : pauseCount + (fence.pauser pauser).pauses = fence.pauseCount + place.pauses)
    (fenced : place.isFenced = true →
      (fence.pauser pauser).isFenced = true ∨ fence.promotionHoldCount = 0) :
    Sound (fence.movePauser pauser place pauseCount) where
  holds := sound.holds
  pauses := by
    have changed := total_update PauserPlace.pauses fence.pauser pauser place
    have counted := sound.pauses
    simp only [PromotionFence.movePauser]
    omega
  fenced := by
    intro other promoter isFenced
    by_cases same : other = pauser
    · subst same
      simp only [PromotionFence.movePauser, Function.update_self] at isFenced
      rcases fenced isFenced with was | noHolds
      · exact sound.fenced other promoter was
      · cases isGranted : (fence.promoter promoter).isGranted with
        | false => exact isGranted
        | true => exact absurd noHolds (sound.hold_seen isGranted)
    · simp only [PromotionFence.movePauser, Function.update_of_ne same] at isFenced
      exact sound.fenced other promoter isFenced

omit [DecidableEq Pauser] [Fintype Promoter] [Fintype Pauser] in
/-- What a promoter's step can do. -/
theorem promoterStep_moves {action : PromoterAction} {place : PromoterPlace}
    (counted : place.holds ≤ fence.promotionHoldCount)
    (stepped : fence.promoterStep promoter action place = some after) :
    ∃ next holdCount, after = fence.movePromoter promoter next holdCount ∧
      holdCount + place.holds = fence.promotionHoldCount + next.holds ∧
      (next.isGranted = true → place.isGranted = true ∨ fence.pauseCount = 0) := by
  fun_cases PromotionFence.promoterStep fence promoter action place
  case case1 =>
    refine ⟨_, _, (Option.some.inj stepped).symm, ?_, ?_⟩
    · split <;> rfl
    · split <;> exact fun granted => Bool.noConfusion granted
  case case2 =>
    exact ⟨_, _, (Option.some.inj stepped).symm, rfl, fun granted => Bool.noConfusion granted⟩
  case case3 =>
    refine ⟨_, _, (Option.some.inj stepped).symm, ?_, ?_⟩
    · split <;> rfl
    · split
      case isTrue => exact fun granted => Bool.noConfusion granted
      case isFalse noPause => exact fun _ => Or.inr (not_not.mp noPause)
  case case4 =>
    exact ⟨_, _, (Option.some.inj stepped).symm, Nat.sub_add_cancel counted,
      fun granted => Bool.noConfusion granted⟩
  case case5 | case6 =>
    exact ⟨_, _, (Option.some.inj stepped).symm, rfl, fun _ => Or.inl rfl⟩
  case case7 isGranted =>
    rw [PromotionFence.promoterStep, if_pos isGranted] at stepped
    rw [holds_of_isGranted isGranted] at counted ⊢
    exact ⟨_, _, (Option.some.inj stepped).symm, Nat.sub_add_cancel counted,
      fun granted => Bool.noConfusion granted⟩
  case case8 notGranted =>
    rw [PromotionFence.promoterStep, if_neg notGranted] at stepped
    contradiction
  case case9 =>
    rw [PromotionFence.promoterStep] at stepped <;> first | contradiction | assumption

omit [DecidableEq Promoter] [Fintype Promoter] [Fintype Pauser] in
/-- What a pauser's step can do. -/
theorem pauserStep_moves {action : PauserAction} {place : PauserPlace}
    (counted : place.pauses ≤ fence.pauseCount)
    (stepped : fence.pauserStep pauser action place = some after) :
    ∃ next pauseCount, after = fence.movePauser pauser next pauseCount ∧
      pauseCount + place.pauses = fence.pauseCount + next.pauses ∧
      (next.isFenced = true → place.isFenced = true ∨ fence.promotionHoldCount = 0) ∧
      (place.isFenced = true → action = .endPause ∨ next.isFenced = true) := by
  fun_cases PromotionFence.pauserStep fence pauser action place
  case case1 =>
    exact ⟨_, _, (Option.some.inj stepped).symm, rfl, fun isFenced => Bool.noConfusion isFenced,
      fun isFenced => Bool.noConfusion isFenced⟩
  case case2 =>
    refine ⟨_, _, (Option.some.inj stepped).symm, ?_, ?_, fun isFenced => Bool.noConfusion isFenced⟩
    · split <;> rfl
    · split
      case isTrue => exact fun isFenced => Bool.noConfusion isFenced
      case isFalse noHolds => exact fun _ => Or.inr (not_not.mp noHolds)
  case case3 =>
    exact ⟨_, _, (Option.some.inj stepped).symm, rfl, fun _ => Or.inl rfl, fun _ => Or.inr rfl⟩
  case case4 =>
    rw [PromotionFence.pauserStep, if_pos rfl] at stepped
    contradiction
  case case5 notIdle =>
    rw [PromotionFence.pauserStep, if_neg notIdle] at stepped
    have registered : place.pauses = 1 := by
      cases place <;> first | rfl | contradiction
    rw [registered] at counted ⊢
    exact ⟨_, _, (Option.some.inj stepped).symm, Nat.sub_add_cancel counted,
      fun isFenced => Bool.noConfusion isFenced, fun _ => Or.inl rfl⟩
  case case6 =>
    rw [PromotionFence.pauserStep] at stepped <;> first | contradiction | assumption

omit [DecidableEq Promoter] [DecidableEq Pauser] in
theorem Sound.promoter_counted (sound : Sound fence) :
    (fence.promoter promoter).holds ≤ fence.promotionHoldCount :=
  sound.holds ▸ le_total PromoterPlace.holds fence.promoter promoter

omit [DecidableEq Promoter] [DecidableEq Pauser] in
theorem Sound.pauser_counted (sound : Sound fence) :
    (fence.pauser pauser).pauses ≤ fence.pauseCount :=
  sound.pauses ▸ le_total PauserPlace.pauses fence.pauser pauser

/-- Every step keeps the counts. -/
theorem Sound.step {event : FenceEvent Promoter Pauser} (sound : Sound fence)
    (stepped : fence.step event = some after) :
    Sound after := by
  cases event with
  | promoter thread action =>
    obtain ⟨next, holdCount, rfl, moves, granted⟩ :=
      promoterStep_moves sound.promoter_counted stepped
    exact sound.movePromoter moves granted
  | pauser thread action =>
    obtain ⟨next, pauseCount, rfl, moves, fenced, -⟩ :=
      pauserStep_moves sound.pauser_counted stepped
    exact sound.movePauser moves fenced

theorem Reached.sound (reached : Reached fence) : Sound fence :=
  reached.invariant sound_new fun _ _ _ sound _ stepped => sound.step stepped

/-- A fenced pauser stays so until its `EndPause`. -/
theorem Sound.fenced_until_endPause {event : FenceEvent Promoter Pauser} (sound : Sound fence)
    (isFenced : (fence.pauser pauser).isFenced = true) (stepped : fence.step event = some after) :
    event = .pauser pauser .endPause ∨ (after.pauser pauser).isFenced = true := by
  cases event with
  | promoter thread action =>
    obtain ⟨next, holdCount, rfl, -⟩ := promoterStep_moves sound.promoter_counted stepped
    exact Or.inr isFenced
  | pauser thread action =>
    obtain ⟨next, pauseCount, rfl, -, -, stays⟩ := pauserStep_moves sound.pauser_counted stepped
    simp only [PromotionFence.movePauser]
    by_cases same : pauser = thread
    · subst same
      rw [Function.update_self]
      exact (stays isFenced).imp_left (congrArg _)
    · rw [Function.update_of_ne same]
      exact Or.inr isFenced

/-- In every interleaving: while a pauser that has seen no holds has not ended its pause, no
promoter has a hold, is granted one or commits a pop; a pauser that looks sees every hold; and
when all threads are done the fence is as it was at first and grants a hold again. -/
theorem pause_fences_promotion (reached : Reached fence) :
    (∀ pauser, (fence.pauser pauser).isFenced = true →
      (∀ promoter, (fence.promoter promoter).isGranted = false) ∧
      ∀ event after, fence.step event = some after →
        (event = .pauser pauser .endPause ∨ (after.pauser pauser).isFenced = true) ∧
        (∀ promoter, (after.promoter promoter).isGranted = false) ∧
        ∀ promoter, event ≠ .promoter promoter .pop) ∧
    (∀ promoter pauser after, (fence.promoter promoter).isGranted = true →
      fence.step (.pauser pauser .lookForHolds) = some after →
        (after.pauser pauser).isFenced = false) ∧
    (fence.AllDone → fence = new ∧ ∀ promoter, ∃ after, [.firstLook, .announce, .secondLook].foldlM
        (fun (fence : PromotionFence Promoter Pauser) action =>
          fence.step (.promoter promoter action)) fence = some after ∧
      (after.promoter promoter).isGranted = true) := by
  have sound := reached.sound
  refine ⟨?_, ?_, ?_⟩
  · intro pauser isFenced
    have noneGranted := fun promoter => sound.fenced pauser promoter isFenced
    refine ⟨noneGranted, ?_⟩
    intro event after stepped
    have stays := sound.fenced_until_endPause isFenced stepped
    refine ⟨stays, ?_, ?_⟩
    · intro promoter
      rcases stays with rfl | stillFenced
      · rw [PromotionFence.step] at stepped
        obtain ⟨_, _, rfl, -⟩ := pauserStep_moves sound.pauser_counted stepped
        exact noneGranted promoter
      · exact (sound.step stepped).fenced pauser promoter stillFenced
    · rintro promoter rfl
      have notGranted := noneGranted promoter
      simp only [PromotionFence.step] at stepped
      cases isPlace : fence.promoter promoter
      all_goals
        rw [isPlace] at stepped notGranted
        contradiction
  · intro promoter pauser after granted stepped
    rw [PromotionFence.step] at stepped
    obtain ⟨next, _, rfl, -, fenced, -⟩ := pauserStep_moves sound.pauser_counted stepped
    simp only [PromotionFence.movePauser, Function.update_self]
    cases isFenced : next.isFenced with
    | false => rfl
    | true =>
      rcases fenced isFenced with was | noHolds
      · rw [sound.fenced pauser promoter was] at granted
        contradiction
      · exact absurd noHolds (sound.hold_seen granted)
  · rintro ⟨promotersDone, pausersDone⟩
    have noHolds : fence.promotionHoldCount = 0 := by
      rw [sound.holds, total_eq_zero_iff]
      exact fun promoter => promotersDone promoter ▸ rfl
    have noPauses : fence.pauseCount = 0 := by
      rw [sound.pauses, total_eq_zero_iff]
      exact fun pauser => pausersDone pauser ▸ rfl
    have isNew : fence = new := by
      obtain ⟨_, _, _, _⟩ := fence
      obtain rfl := noHolds
      obtain rfl := noPauses
      obtain rfl := funext promotersDone
      obtain rfl := funext pausersDone
      rfl
    subst isNew
    refine ⟨rfl, fun promoter => ?_⟩
    simp [PromotionFence.step, promoterStep, new, PromotionFence.movePromoter,
      PromoterPlace.isGranted]

/-- A promoter announces itself, finds a pauser and backs out; the pauser looks before and
after. -/
def backsOut : List (FenceEvent (Fin 2) (Fin 2)) :=
  [.promoter 0 .firstLook, .promoter 0 .announce, .pauser 0 .beginPause, .pauser 0 .lookForHolds,
    .promoter 0 .secondLook, .promoter 0 .withdraw, .pauser 0 .lookForHolds]

/-- A promoter backs out, and the pauser is fenced. -/
theorem pause_fences_promotion_paused :
    ∃ fence, EventRuns.run step (fun _ _ => True) new backsOut = some fence ∧
      (fence.pauser 0).isFenced = true ∧
      ∀ promoter, (fence.promoter promoter).isGranted = false := by
  obtain ⟨fence, ran, isFenced⟩ : ∃ fence, EventRuns.run step (fun _ _ => True) new backsOut =
      some fence ∧ (fence.pauser 0).isFenced = true := ⟨_, rfl, by decide⟩
  have reached : Reached fence := EventRuns.reaches_of_run ran
  exact ⟨fence, ran, isFenced, ((pause_fences_promotion reached).1 0 isFenced).1⟩

end Soundness

end PromotionFence

end Orly
