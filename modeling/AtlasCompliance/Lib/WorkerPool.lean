import Mathlib

/-! Workers that share a counter of jobs: each of them asks whether there is more to do, takes the next
job by its number and asks again when the job has returned. -/
namespace AtlasCompliance.WorkerPool

universe u
variable {ρ : Type u}

/-- Where a worker is between two of its steps. -/
inductive Worker where
  | created
  | waiting (job : ℕ)
  | finished
  deriving DecidableEq

/-- The job a worker waits for. -/
def Worker.jobs : Worker → List ℕ
  | .created => []
  | .waiting job => [job]
  | .finished => []

structure Pool (ρ : Type u) where
  issued : ℕ
  workers : List Worker
  results : List ρ

namespace Pool

def start (c : ℕ) : Pool ρ := ⟨0,List.replicate c .created,[]⟩

/-- The jobs that have been taken and have not returned. -/
def inFlight (p : Pool ρ) : List ℕ := p.workers.flatMap Worker.jobs

/-- The workers still in their loop. -/
def active (p : Pool ρ) : ℕ := p.workers.countP (· ≠ .finished)

/-- The loop test with its outcome, and what the worker does on it. -/
def proceed (more : Bool) (w : ℕ) (p : Pool ρ) : Pool ρ :=
  if more then {p with issued := p.issued+1, workers := p.workers.set w (.waiting p.issued)}
  else {p with workers := p.workers.set w .finished}

/-- A worker goes on: with the result of its job, if it waits for one. -/
def resume (more : Bool) (reply : ℕ → ρ) (w : ℕ) (p : Pool ρ) : Option (Pool ρ) :=
  match p.workers[w]? with
  | some .created => some (p.proceed more w)
  | some (.waiting job) => some ({p with results := p.results ++ [reply job]}.proceed more w)
  | some .finished => none
  | none => none

variable {p q : Pool ρ} {more : Bool} {reply : ℕ → ρ} {w c : ℕ}

/-- All that a worker's step can be. -/
theorem resume_eq_some : p.resume more reply w = some q ↔
    ∃ x, p.workers[w]? = some x ∧ x ≠ .finished ∧
      q = {p with results := p.results ++ x.jobs.map reply}.proceed more w := by
  unfold resume
  cases h : p.workers[w]? with
  | none => simp
  | some x => cases x <;> simp [Worker.jobs,eq_comm]

@[simp] theorem proceed_results : (p.proceed more w).results = p.results := by
  cases more <;> rfl

theorem proceed_issued : (p.proceed more w).issued = if more then p.issued+1 else p.issued := by
  cases more <;> rfl

theorem resume_issued (h : p.resume more reply w = some q) :
    q.issued = if more then p.issued+1 else p.issued := by
  obtain ⟨x,-,-,rfl⟩ := resume_eq_some.mp h
  exact proceed_issued

/-- The worker that takes a step stands for itself among the others. -/
theorem perm_of_getElem? {α : Type} {xs : List α} {x : α} (h : xs[w]? = some x) (y : α) :
    xs.Perm (x::xs.eraseIdx w) ∧ (xs.set w y).Perm (y::xs.eraseIdx w) := by
  obtain ⟨hw,rfl⟩ := List.getElem?_eq_some_iff.mp h
  exact ⟨(List.getElem_cons_eraseIdx_perm hw).symm,List.set_perm_cons_eraseIdx hw y⟩

/-! ### What holds of every pool -/

/-- The number of workers stays, and each job that was taken is in flight or has returned, once. -/
structure Sound (reply : ℕ → ρ) (c : ℕ) (p : Pool ρ) : Prop where
  size : p.workers.length = c
  settled : (p.results ++ p.inFlight.map reply).Perm ((List.range p.issued).map reply)

theorem Sound.start (reply : ℕ → ρ) (c : ℕ) : Sound reply c (start c) := by
  refine ⟨List.length_replicate,?_⟩
  have hnone : (List.replicate c Worker.created).flatMap Worker.jobs = [] := by
    rw [List.flatMap_eq_nil_iff]
    intro x hx
    rw [List.eq_of_mem_replicate hx]
    rfl
  simp [Pool.start,inFlight,hnone]

theorem inFlight_proceed (more : Bool) {x : Worker} (hx : p.workers[w]? = some x) : ∃ others : List ℕ,
    p.inFlight.Perm (x.jobs ++ others) ∧
      (p.proceed more w).inFlight.Perm ((if more then [p.issued] else []) ++ others) := by
  refine ⟨(p.workers.eraseIdx w).flatMap Worker.jobs,?_,?_⟩
  · exact (perm_of_getElem? hx x).1.flatMap_right Worker.jobs
  · cases more
    · exact (perm_of_getElem? hx .finished).2.flatMap_right Worker.jobs
    · exact (perm_of_getElem? hx (.waiting p.issued)).2.flatMap_right Worker.jobs

theorem Sound.resume (hp : Sound reply c p) (h : p.resume more reply w = some q) : Sound reply c q := by
  obtain ⟨x,hx,-,rfl⟩ := resume_eq_some.mp h
  constructor
  · cases more
    · simpa [proceed] using hp.size
    · simpa [proceed] using hp.size
  · obtain ⟨others,hbefore,hafter⟩ := inFlight_proceed more
      (p := {p with results := p.results ++ x.jobs.map reply}) hx
    have hsettled : ((p.results ++ x.jobs.map reply) ++ others.map reply).Perm
        ((List.range p.issued).map reply) := by
      rw [List.append_assoc,← List.map_append]
      exact ((hbefore.symm.map reply).append_left p.results).trans hp.settled
    rw [proceed_results,proceed_issued]
    refine ((hafter.map reply).append_left _).trans ?_
    cases more
    · exact hsettled
    · -- the job just taken is the last of the range
      rw [if_pos rfl,if_pos rfl,List.range_succ,List.map_append,List.map_append]
      refine (List.perm_append_comm.append_left _).trans ?_
      rw [← List.append_assoc]
      exact hsettled.append_right _

/-- What was taken is what has returned and what is in flight. -/
theorem Sound.issued_eq (hp : Sound reply c p) : p.issued = p.results.length + p.inFlight.length := by
  have hlength := hp.settled.length_eq
  simpa using hlength.symm

/-- There are no more jobs in flight than workers. -/
theorem Sound.inFlight_le (hp : Sound reply c p) : p.inFlight.length ≤ c := by
  have hone : ∀ x : Worker, x.jobs.length ≤ 1 := by
    intro x
    cases x <;> simp [Worker.jobs]
  have hle : ∀ ws : List Worker, (ws.flatMap Worker.jobs).length ≤ ws.length := by
    intro ws
    induction ws with
    | nil => exact le_rfl
    | cons x ws ih =>
      have hx := hone x
      rw [List.flatMap_cons,List.length_append,List.length_cons]
      omega
  exact hp.size ▸ hle p.workers

/-- Once every worker has finished, the results are those of the jobs that were taken. -/
theorem Sound.results_perm (hp : Sound reply c p) (hall : ∀ x ∈ p.workers, x = .finished) :
    p.results.Perm ((List.range p.issued).map reply) := by
  have hnone : p.inFlight = [] := by
    rw [inFlight,List.flatMap_eq_nil_iff]
    intro x hx
    rw [hall x hx]
    rfl
  simpa [hnone] using hp.settled

/-! ### How a pool comes to its end -/

/-- A worker is finished by its step only where there was no more to do. -/
theorem finished_of_resume (h : p.resume more reply w = some q) (hmem : .finished ∈ q.workers) :
    more = false ∨ .finished ∈ p.workers := by
  obtain ⟨x,hx,-,rfl⟩ := resume_eq_some.mp h
  cases more with
  | false => exact Or.inl rfl
  | true =>
    obtain hold | hnew := List.mem_or_eq_of_mem_set hmem
    · exact Or.inr hold
    · cases hnew

/-- A step takes a job or ends a worker. -/
theorem active_of_resume (h : p.resume more reply w = some q) :
    p.active = if more then q.active else q.active + 1 := by
  obtain ⟨x,hx,hactive,rfl⟩ := resume_eq_some.mp h
  have hbefore := (perm_of_getElem? hx x).1.countP_eq (· ≠ .finished)
  cases more with
  | false =>
    have hafter := (perm_of_getElem? hx .finished).2.countP_eq (· ≠ .finished)
    simp_all [active,proceed]
  | true =>
    have hafter := (perm_of_getElem? hx (.waiting p.issued)).2.countP_eq (· ≠ .finished)
    simp_all [active,proceed]

/-- A worker that is not finished can take a step, whatever the loop test says. -/
theorem exists_resume {x : Worker} (hx : x ∈ p.workers) (hactive : x ≠ .finished) :
    ∃ w, ∀ more, ∃ q, p.resume more reply w = some q := by
  obtain ⟨w,hw⟩ := List.mem_iff_getElem?.mp hx
  exact ⟨w,fun more => ⟨_,resume_eq_some.mpr ⟨x,hw,hactive,rfl⟩⟩⟩

end Pool

end AtlasCompliance.WorkerPool
