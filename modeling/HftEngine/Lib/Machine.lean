import Mathlib.Data.List.Basic

/-! Machines that answer every call: what a list of calls returns, and the calls that can be left out of it. -/

namespace Machine

variable {σ ι ο : Type}

/-- The state after a list of calls. -/
def after (step : σ → ι → σ × ο) (s : σ) (calls : List ι) : σ := calls.foldl (fun s i => (step s i).1) s

/-- The calls with what they return. -/
def trace (step : σ → ι → σ × ο) : σ → List ι → List (ι × ο)
  | _, [] => []
  | s, i :: calls => (i, (step s i).2) :: trace step (step s i).1 calls

/-- Some of the entries that `Silent` allows are left out. -/
inductive Thinned (Silent : ο → Prop) : List (ι × ο) → List (ι × ο) → Prop
  | nil : Thinned Silent [] []
  | keep {p : ι × ο} {l kept : List (ι × ο)} : Thinned Silent l kept → Thinned Silent (p :: l) (p :: kept)
  | drop {p : ι × ο} {l kept : List (ι × ο)} : Silent p.2 → Thinned Silent l kept → Thinned Silent (p :: l) kept

section
variable {γ : Type} {step : σ → ι → σ × ο} {Silent : ο → Prop} {core : σ → γ} {s t : σ} {calls : List ι}
  {kept : List (ι × ο)}

/-- Where the answers depend on the core of the state only, and silent calls leave the core as it is, the other calls
    return the same without them. -/
theorem Thinned.trace (answers : ∀ {s t} i, core s = core t →
      core (step s i).1 = core (step t i).1 ∧ (step s i).2 = (step t i).2)
    (silent : ∀ {s} i, Silent (step s i).2 → core (step s i).1 = core s)
    (hcore : core s = core t) (h : Thinned Silent (trace step s calls) kept) :
    Machine.trace step t (kept.map Prod.fst) = kept ∧
      core (after step t (kept.map Prod.fst)) = core (after step s calls) := by
  induction calls generalizing s t kept with
  | nil =>
    cases h
    exact ⟨rfl, hcore.symm⟩
  | cons i calls ih =>
    obtain ⟨hnext, houtput⟩ := answers i hcore
    rcases h with _ | hrest | ⟨hsilent, hrest⟩
    · obtain ⟨htrace, hafter⟩ := ih hnext hrest
      refine ⟨?_, hafter⟩
      rw [List.map_cons, Machine.trace, htrace, houtput]
    · exact ih ((silent i hsilent).trans hcore) hrest

end

end Machine
