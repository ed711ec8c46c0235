import HftEngine.RiskGate
import HftEngine.Lib.Machine
import Mathlib.Algebra.Ring.Nat

/-! What the calls of a risk gate return: a refused check moves its own counter and nothing else, so the other calls
    return the same without it. -/

namespace Hft.RiskGate

open Machine

/-! ### Calls -/

inductive Call
  | check (kill : Bool) (now : UInt64) (o : OrderRequest)
  | onFill (r : ExecReport)
  | setPosition (p : Int)
  deriving DecidableEq

/-- A call and what it returns. -/
def call (g : RiskGate) : Call → RiskGate × Option RiskResult
  | .check kill now o => ((g.check kill now o).1, some (g.check kill now o).2)
  | .onFill r => (g.onFill r, none)
  | .setPosition p => (g.setPosition p, none)

def Refused (result : Option RiskResult) : Prop := result ≠ none ∧ result ≠ some .kAccept

instance : DecidablePred Refused := fun _ => inferInstanceAs (Decidable (_ ∧ _))

/-- The gate without its counters of refusals. -/
def core (g : RiskGate) : RiskGate := { g with rejKill := 0, rejSize := 0, rejPos := 0, rejRate := 0 }

section
variable {g t : RiskGate}

theorem core_call (c : Call) (h : core g = core t) :
    core (g.call c).1 = core (t.call c).1 ∧ (g.call c).2 = (t.call c).2 := by
  obtain ⟨kill, size, pos, rate, rfl⟩ :
      ∃ a b c d, t = { g with rejKill := a, rejSize := b, rejPos := c, rejRate := d } := by
    obtain ⟨⟩ := g
    obtain ⟨⟩ := t
    cases h
    exact ⟨_, _, _, _, rfl⟩
  cases c with
  | check kill now o =>
    by_cases hkill : kill = true
    · simp [call, check, core, hkill]
    by_cases hsize : o.size = 0 ∨ o.size > g.maxOrderSize
    · simp [call, check, core, hkill, hsize]
    by_cases hpos : g.projected o > g.maxPosition ∨ g.projected o < -g.maxPosition
    · simp only [projected] at hpos
      simp [call, check, core, hkill, hsize, projected, hpos]
    simp only [projected] at hpos
    by_cases hrate : g.cyclesPerToken = 0
    · simp [call, check, core, hkill, hsize, projected, hpos, hrate]
    by_cases hnow : now < if g.tat > g.tau then g.tat - g.tau else 0
    · simp [call, check, core, hkill, hsize, projected, hpos, hrate, earliest, hnow]
    · simp [call, check, core, hkill, hsize, projected, hpos, hrate, earliest, hnow, nextTat]
  | onFill | setPosition => exact ⟨rfl, rfl⟩

theorem core_of_refused (c : Call) (h : Refused (g.call c).2) : core (g.call c).1 = core g := by
  cases c with
  | check kill now o =>
    have hrej : (g.check kill now o).2 ≠ .kAccept := fun heq => h.2 (congrArg some heq)
    simp only [call]
    unfold check at hrej ⊢
    split_ifs at hrej ⊢ <;> first | rfl | exact absurd rfl hrej
  | onFill | setPosition => exact absurd rfl h.1

/-! ### Counters -/

def counter (g : RiskGate) : RiskResult → UInt64
  | .kAccept => g.accepted
  | .kKillSwitch => g.rejKill
  | .kOrderSizeLimit => g.rejSize
  | .kPositionLimit => g.rejPos
  | .kRateLimit => g.rejRate

theorem counter_call (g : RiskGate) (c : Call) (result : RiskResult) :
    (g.call c).1.counter result = g.counter result + if (g.call c).2 = some result then 1 else 0 := by
  cases c with
  | check kill now o =>
    simp only [call]
    unfold check
    split_ifs <;> cases result <;> simp_all [counter]
  | onFill | setPosition => simp [call, counter, onFill, setPosition]

end

/-- How many calls returned a result. -/
def answered (result : RiskResult) (l : List (Call × Option RiskResult)) : Nat :=
  l.countP fun p => p.2 = some result

theorem answered_cons (result : RiskResult) (p : Call × Option RiskResult) (l : List (Call × Option RiskResult)) :
    answered result (p :: l) = answered result l + if p.2 = some result then 1 else 0 := by
  simp [answered, List.countP_cons]

def Call.isCheck : Call → Bool
  | .check .. => true
  | .onFill _ | .setPosition _ => false

theorem counter_after (g : RiskGate) (calls : List Call) (result : RiskResult) :
    (after call g calls).counter result = g.counter result + UInt64.ofNat (answered result (trace call g calls)) := by
  induction calls generalizing g with
  | nil => exact (UInt64.add_zero _).symm
  | cons c calls ih =>
    have hrest : (after call g (c :: calls)).counter result = _ := ih (g.call c).1
    rw [hrest, counter_call, trace, answered_cons, UInt64.ofNat_add, UInt64.add_assoc]
    split
    · exact congrArg _ (UInt64.add_comm 1 _)
    · exact congrArg _ (UInt64.add_comm 0 _)

/-- Every check is counted once. -/
theorem sum_answered (g : RiskGate) (calls : List Call) :
    answered .kAccept (trace call g calls) + answered .kKillSwitch (trace call g calls) +
      answered .kOrderSizeLimit (trace call g calls) + answered .kPositionLimit (trace call g calls) +
      answered .kRateLimit (trace call g calls) = calls.countP Call.isCheck := by
  induction calls generalizing g with
  | nil => rfl
  | cons c calls ih =>
    have hrest := ih (g.call c).1
    simp only [trace, answered_cons, List.countP_cons, ← hrest]
    cases c with
    | check kill now o =>
      simp only [call, Call.isCheck, Option.some.injEq]
      cases (g.check kill now o).2 <;> simp <;> omega
    | onFill | setPosition => simp [call, Call.isCheck]

/-! ### Runs -/

/-- Leaving out refused checks changes no result of the other calls, nor the position, the arrival time and the count of
    accepted orders; a refused check consumes no token; and the counters add up to the checks. -/
theorem refusals_leave_no_trace (lim : RiskLimits) (cyclesPerToken : UInt64) (calls : List Call) :
    let start := new lim cyclesPerToken
    let g := after call start calls
    (∀ kept, Thinned Refused (trace call start calls) kept →
      trace call start (kept.map Prod.fst) = kept ∧
      let g' := after call start (kept.map Prod.fst)
      g'.position = g.position ∧ g'.tat = g.tat ∧ g'.accepted = g.accepted) ∧
    (∀ c, Refused (g.call c).2 → (g.call c).1.core = g.core) ∧
    g.accepted + g.rejKill + g.rejSize + g.rejPos + g.rejRate = UInt64.ofNat (calls.countP Call.isCheck) ∧
    (calls.countP Call.isCheck < 2 ^ 64 →
      g.accepted.toNat + g.rejKill.toNat + g.rejSize.toNat + g.rejPos.toNat + g.rejRate.toNat =
        calls.countP Call.isCheck) := by
  intro start g
  have hcounter : ∀ result, g.counter result = UInt64.ofNat (answered result (trace call start calls)) := fun result =>
    (counter_after start calls result).trans (by cases result <;> exact UInt64.zero_add _)
  have hacc : g.accepted = _ := hcounter .kAccept
  have hkill : g.rejKill = _ := hcounter .kKillSwitch
  have hsize : g.rejSize = _ := hcounter .kOrderSizeLimit
  have hpos : g.rejPos = _ := hcounter .kPositionLimit
  have hrate : g.rejRate = _ := hcounter .kRateLimit
  have hsum := sum_answered start calls
  refine ⟨fun kept hthin => ?_, core_of_refused, ?_, fun hlt => ?_⟩
  · obtain ⟨htrace, hcore⟩ := hthin.trace (t := start) core_call core_of_refused rfl
    exact ⟨htrace, (congrArg position hcore :), (congrArg tat hcore :), (congrArg accepted hcore :)⟩
  · rw [hacc, hkill, hsize, hpos, hrate, ← hsum]
    simp only [UInt64.ofNat_add]
  · rw [hacc, hkill, hsize, hpos, hrate]
    simp only [UInt64.toNat_ofNat']
    omega

theorem refusals_leave_no_trace_oversize :
    let start := new ⟨1000, 500, 0⟩ 0
    let big : Call := .check false 0 { side := Side.kBuy.toByte, size := 600 }
    let small : Call := .check false 0 { side := Side.kBuy.toByte, size := 100 }
    let g := after call start [big, small]
    trace call start [small] = [(small, some .kAccept)] ∧
      g.accepted.toNat + g.rejKill.toNat + g.rejSize.toNat + g.rejPos.toNat + g.rejRate.toNat = 2 := by
  intro start big small g
  obtain ⟨hkept, -, -, hcount⟩ := refusals_leave_no_trace ⟨1000, 500, 0⟩ 0 [big, small]
  have hthin : Thinned Refused (trace call start [big, small]) [(small, some .kAccept)] :=
    .drop (by decide) (.keep .nil)
  exact ⟨(hkept _ hthin).1, hcount (by decide)⟩

end Hft.RiskGate
