import AtlasCompliance.Infra.Metrics
import AtlasCompliance.Lib.Transition
import AtlasCompliance.Lib.WorkerPool

/-! The load generator: warm-up sends, then workers that share the counter of issued requests, then the
summary. A worker runs undisturbed from one of its sends to the next; the schedule orders these steps. -/
namespace AtlasCompliance.Infra
open WorkerPool Transition
open Python (Error)

/-- What ends the measured phase. -/
inductive StopCondition where
  | totalRequests (n : ℤ)
  | duration (seconds : ℚ)

/-- The arguments of `run_load` past its checks. -/
structure Load where
  prompts : List String
  nonEmpty : prompts ≠ []
  concurrency : ℤ
  stop : StopCondition
  warmup : ℤ

/-- The checks at the head of `run_load`, with the texts of their errors. -/
def Load.ofArgs (prompts : List String) (concurrency : ℤ) (total_requests : Option ℤ)
    (duration_s : Option ℚ) (warmup : ℤ) : Except String Load :=
  if h : prompts = [] then .error "prompts must be non-empty"
  else match total_requests, duration_s with
    | some n, none => .ok ⟨prompts,h,concurrency,.totalRequests n,warmup⟩
    | none, some seconds => .ok ⟨prompts,h,concurrency,.duration seconds,warmup⟩
    | some _, some _ => .error "set exactly one of total_requests or duration_s"
    | none, none => .error "set exactly one of total_requests or duration_s"

namespace LoadRunner

/-- The measured phase: when it began, the workers with their counter and their results, and the
prompts they have sent. -/
structure Measured where
  start : ℚ
  pool : Pool RequestResult
  sends : List String

/-- `warmup` holds the prompts whose sends have not returned. -/
inductive State where
  | warmup (left : List String)
  | measuring (m : Measured)
  | returned (m : Measured) (point : Except Error BenchPoint)

/-- What can happen next: a warm-up send returns, the measured phase begins, a worker goes on, the
workers are gathered. Each time the clock is read it shows `now`. -/
inductive Event where
  | warmed (i : ℕ)
  | begin (now : ℚ)
  | resume (worker_id : ℕ) (now : ℚ)
  | gather (now : ℚ)

section
variable (L : Load) (reply : ℕ → RequestResult)

/-- `prompts[idx % len(prompts)]` -/
def prompt (idx : ℕ) : String :=
  L.prompts.get ⟨idx % L.prompts.length,Nat.mod_lt _ (List.length_pos_iff.mpr L.nonEmpty)⟩

def initial : State := .warmup ((List.range L.warmup.toNat).map (prompt L))

/-- `_should_issue` -/
def shouldIssue (m : Measured) (now : ℚ) : Bool :=
  match L.stop with
  | .totalRequests n => decide ((m.pool.issued : ℤ) < n)
  | .duration seconds => decide (now < m.start + seconds)

/-- A worker from where it waits to its next send or its end. -/
def worker (worker_id : ℕ) (now : ℚ) (m : Measured) : Option Measured :=
  let more := shouldIssue L m now
  (m.pool.resume more reply worker_id).map fun pool =>
    {m with pool := pool, sends := if more then m.sends ++ [prompt L m.pool.issued] else m.sends}

/-- `run_load` step by step. -/
def step : State → Event → Option State
  | .warmup left, .warmed i => if i < left.length then some (.warmup (left.eraseIdx i)) else none
  | .warmup left, .begin now =>
    if left = [] then some (.measuring ⟨now,Pool.start L.concurrency.toNat,[]⟩) else none
  | .measuring m, .resume worker_id now => (worker L reply worker_id now m).map .measuring
  | .measuring m, .gather now =>
    if ∀ x ∈ m.pool.workers, x = .finished then
      some (.returned m (summarize L.concurrency (now - m.start) m.pool.results))
    else none
  | .warmup _, .resume _ _ | .warmup _, .gather _ => none
  | .measuring _, .warmed _ | .measuring _, .begin _ => none
  | .returned _ _, .warmed _ | .returned _ _, .begin _ => none
  | .returned _ _, .resume _ _ | .returned _ _, .gather _ => none

end

/-- The measured phase of a state that has reached it. -/
def State.measured : State → Option Measured
  | .warmup _ => none
  | .measuring m => some m
  | .returned m _ => some m

/-! ### What holds on every schedule -/

variable {L : Load} {reply : ℕ → RequestResult} {m m' : Measured} {n : ℤ}

/-- The sends follow the counter, and no worker stops short of the total. -/
structure Inv (L : Load) (reply : ℕ → RequestResult) (m : Measured) : Prop where
  sound : m.pool.Sound reply L.concurrency.toNat
  sends : m.sends = (List.range m.pool.issued).map (prompt L)
  within : ∀ n, L.stop = .totalRequests n → m.pool.issued ≤ n.toNat
  reached : ∀ n, L.stop = .totalRequests n → .finished ∈ m.pool.workers → n.toNat ≤ m.pool.issued

theorem Inv.begin (L : Load) (reply : ℕ → RequestResult) (now : ℚ) :
    Inv L reply ⟨now,Pool.start L.concurrency.toNat,[]⟩ where
  sound := .start reply _
  sends := rfl
  within _ _ := Nat.zero_le _
  reached _ _ hmem := nomatch List.eq_of_mem_replicate hmem

theorem worker_eq_some {w : ℕ} {now : ℚ} : worker L reply w now m = some m' ↔
    ∃ pool, m.pool.resume (shouldIssue L m now) reply w = some pool ∧
      m' = {m with pool := pool, sends := if shouldIssue L m now then
        m.sends ++ [prompt L m.pool.issued] else m.sends} := by
  constructor
  · intro h
    obtain ⟨pool,hpool,heq⟩ := Option.map_eq_some_iff.mp h
    exact ⟨pool,hpool,heq.symm⟩
  · rintro ⟨pool,hpool,rfl⟩
    exact Option.map_eq_some_iff.mpr ⟨pool,hpool,rfl⟩

theorem Inv.worker {w : ℕ} {now : ℚ} (hm : Inv L reply m) (h : worker L reply w now m = some m') :
    Inv L reply m' := by
  obtain ⟨pool,hpool,rfl⟩ := worker_eq_some.mp h
  have hissued := Pool.resume_issued hpool
  refine ⟨hm.sound.resume hpool,?_,fun n hn => ?_,fun n hn hmem => ?_⟩
  · show (if shouldIssue L m now then m.sends ++ [prompt L m.pool.issued] else m.sends) =
      (List.range pool.issued).map (prompt L)
    rw [hissued,hm.sends]
    cases shouldIssue L m now
    · rfl
    · simp [List.range_succ]
  · have hwithin := hm.within n hn
    cases hmore : shouldIssue L m now with
    | false => simpa [hissued,hmore] using hwithin
    | true =>
      have hlt : (m.pool.issued : ℤ) < n := by simpa [shouldIssue,hn] using hmore
      simp only [hissued,hmore,if_true]
      omega
  · have hle : m.pool.issued ≤ pool.issued := by
      rw [hissued]
      split_ifs <;> omega
    obtain hmore | hold := Pool.finished_of_resume hpool hmem
    · have hge : n ≤ (m.pool.issued : ℤ) := by simpa [shouldIssue,hn] using hmore
      exact (Int.toNat_le.mpr hge).trans hle
    · exact (hm.reached n hn hold).trans hle

/-- What a run can have come to. -/
def Good (L : Load) (reply : ℕ → RequestResult) : State → Prop
  | .warmup _ => True
  | .measuring m => Inv L reply m
  | .returned m point => Inv L reply m ∧ (∀ x ∈ m.pool.workers, x = .finished) ∧
      ∃ now, point = summarize L.concurrency (now - m.start) m.pool.results

theorem Good.step {s t : State} {e : Event} (hs : Good L reply s) (h : step L reply s e = some t) :
    Good L reply t := by
  cases s with
  | warmup left =>
    cases e with
    | warmed i =>
      simp only [LoadRunner.step] at h
      split_ifs at h
      cases h
      trivial
    | begin now =>
      simp only [LoadRunner.step] at h
      split_ifs at h
      cases h
      exact Inv.begin L reply now
    | resume w now => cases h
    | gather now => cases h
  | measuring m =>
    cases e with
    | warmed i => cases h
    | begin now => cases h
    | resume w now =>
      obtain ⟨m',hm',rfl⟩ := Option.map_eq_some_iff.mp h
      exact Inv.worker hs hm'
    | gather now =>
      simp only [LoadRunner.step] at h
      split_ifs at h with hall
      cases h
      exact ⟨hs,hall,now,rfl⟩
  | returned m point => cases e <;> cases h

theorem Good.run {s : State} (h : Reachable (LoadRunner.step L reply) (initial L) s) :
    Good L reply s := by
  have hinitial : Good L reply (initial L) := True.intro
  exact Reachable.invariant (fun _ _ _ hs hstep => Good.step hs hstep) hinitial h

/-! ### The schedules of a total end, and end in a summary -/

/-- The steps that are left. -/
def remaining (L : Load) (n : ℤ) : State → ℕ
  | .warmup left => left.length + 1 + (n.toNat + L.concurrency.toNat) + 1
  | .measuring m => (n.toNat - m.pool.issued) + m.pool.active + 1
  | .returned _ _ => 0

theorem active_start (c : ℕ) : (Pool.start c : Pool RequestResult).active = c := by
  rw [Pool.active,Pool.start,List.countP_replicate]
  rfl

theorem remaining_lt (hn : L.stop = .totalRequests n) {s t : State} {e : Event}
    (h : step L reply s e = some t) : remaining L n t < remaining L n s := by
  cases s with
  | warmup left =>
    cases e with
    | warmed i =>
      simp only [step] at h
      split_ifs at h with hi
      cases h
      have hshorter := List.length_eraseIdx_of_lt hi
      simp only [remaining]
      omega
    | begin now =>
      simp only [step] at h
      split_ifs at h
      cases h
      have hactive := active_start L.concurrency.toNat
      simp only [remaining,hactive]
      omega
    | resume w now => cases h
    | gather now => cases h
  | measuring m =>
    cases e with
    | warmed i => cases h
    | begin now => cases h
    | resume w now =>
      obtain ⟨m',hm',rfl⟩ := Option.map_eq_some_iff.mp h
      obtain ⟨pool,hpool,rfl⟩ := worker_eq_some.mp hm'
      have hissued := Pool.resume_issued hpool
      have hactive := Pool.active_of_resume hpool
      cases hmore : shouldIssue L m now with
      | false =>
        simp only [hmore] at hissued hactive
        simp only [remaining]
        simp at hissued hactive
        omega
      | true =>
        have hlt : (m.pool.issued : ℤ) < n := by simpa [shouldIssue,hn] using hmore
        simp only [hmore,if_true] at hissued hactive
        simp only [remaining]
        omega
    | gather now =>
      simp only [step] at h
      split_ifs at h
      cases h
      simp only [remaining]
      omega
  | returned m point => cases e <;> cases h

/-- A state without a next step has returned. -/
theorem exists_step (s : State) : (∃ m point, s = .returned m point) ∨
    ∃ e t, step L reply s e = some t := by
  cases s with
  | warmup left =>
    refine Or.inr ?_
    by_cases hleft : left = []
    · exact ⟨.begin 0,_,if_pos hleft⟩
    · exact ⟨.warmed 0,_,if_pos (List.length_pos_iff.mpr hleft)⟩
  | measuring m =>
    refine Or.inr ?_
    by_cases hall : ∀ x ∈ m.pool.workers, x = .finished
    · exact ⟨.gather 0,_,if_pos hall⟩
    · push Not at hall
      obtain ⟨x,hx,hactive⟩ := hall
      obtain ⟨w,hw⟩ := Pool.exists_resume hx hactive
      obtain ⟨pool,hpool⟩ := hw (shouldIssue L m 0)
      exact ⟨.resume w 0,_,Option.map_eq_some_iff.mpr ⟨_,worker_eq_some.mpr ⟨pool,hpool,rfl⟩,rfl⟩⟩
  | returned m point => exact Or.inl ⟨m,point,rfl⟩

/-! ### A total of requests -/

theorem prompt_eq (L : Load) (i : ℕ) : some (prompt L i) = L.prompts[i % L.prompts.length]? := by
  have hlt : i % L.prompts.length < L.prompts.length :=
    Nat.mod_lt _ (List.length_pos_iff.mpr L.nonEmpty)
  rw [List.getElem?_eq_getElem hlt]
  rfl

theorem Inv.length_sends (hm : Inv L reply m) : m.sends.length = m.pool.issued := by
  simp [hm.sends]

theorem Inv.getElem?_sends (hm : Inv L reply m) {i : ℕ} (hi : i < m.sends.length) :
    m.sends[i]? = L.prompts[i % L.prompts.length]? := by
  rw [hm.length_sends] at hi
  rw [hm.sends,List.getElem?_map,List.getElem?_range hi,Option.map_some,prompt_eq]

/-- Once all workers have finished, the total is reached, if there was a worker at all. -/
theorem Inv.issued_eq (hm : Inv L reply m) (hn : L.stop = .totalRequests n) (hworker : 1 ≤ L.concurrency)
    (hall : ∀ x ∈ m.pool.workers, x = .finished) : m.pool.issued = n.toNat := by
  refine le_antisymm (hm.within n hn) (hm.reached n hn ?_)
  have hsize := hm.sound.size
  cases hworkers : m.pool.workers with
  | nil =>
    rw [hworkers,List.length_nil] at hsize
    omega
  | cons x xs =>
    have hx := hall x (by simp [hworkers])
    simp [hx]

theorem Load.ofArgs_total {prompts : List String} {concurrency warmup : ℤ}
    (h : Load.ofArgs prompts concurrency (some n) none warmup = .ok L) :
    L.prompts = prompts ∧ L.concurrency = concurrency ∧ L.stop = .totalRequests n ∧ L.warmup = warmup := by
  unfold Load.ofArgs at h
  split_ifs at h
  cases h
  exact ⟨rfl,rfl,rfl,rfl⟩

/-- With a total of requests each schedule sends the prompts in turn, no more than the total and no more
at once than there are workers; it can go on until it has returned the summary of exactly that many
results, and it does so within a bound. -/
theorem run_load_issues_exactly {prompts : List String} {concurrency warmup : ℤ}
    (hL : Load.ofArgs prompts concurrency (some n) none warmup = .ok L) (hworker : 1 ≤ concurrency)
    (reply : ℕ → RequestResult) {events : List Event} {s : State}
    (hrun : run (step L reply) (initial L) events = some s) :
    (∀ m ∈ s.measured, m.sends.length ≤ n.toNat ∧
      (∀ i < m.sends.length, m.sends[i]? = prompts[i % prompts.length]?) ∧
      m.sends.length = m.pool.results.length + m.pool.inFlight.length ∧
      (m.pool.inFlight.length : ℤ) ≤ concurrency) ∧
    (∀ m point, s = .returned m point → m.sends.length = n.toNat ∧
      m.pool.results.Perm ((List.range n.toNat).map reply) ∧
      ∃ now, point = summarize concurrency (now - m.start) ((List.range n.toNat).map reply)) ∧
    ((∃ m point, s = .returned m point) ∨ ∃ e t, step L reply s e = some t) ∧
    events.length ≤ warmup.toNat + 1 + (n.toNat + concurrency.toNat) + 1 := by
  obtain ⟨rfl,rfl,hn,rfl⟩ := Load.ofArgs_total hL
  have hgood := Good.run ⟨events,hrun⟩
  refine ⟨fun m hm => ?_,?_,exists_step s,?_⟩
  · have hinv : Inv L reply m := by
      cases s with
      | warmup left => cases hm
      | measuring m' =>
        cases hm
        exact hgood
      | returned m' point =>
        cases hm
        exact hgood.1
    have hlimit := hinv.sound.inFlight_le
    refine ⟨hinv.length_sends ▸ hinv.within n hn,fun i hi => hinv.getElem?_sends hi,
      hinv.length_sends.trans hinv.sound.issued_eq,?_⟩
    omega
  · rintro m point rfl
    obtain ⟨hinv,hall,now,rfl⟩ := hgood
    have htotal := hinv.issued_eq hn hworker hall
    have hperm := hinv.sound.results_perm hall
    rw [htotal] at hperm
    exact ⟨hinv.length_sends.trans htotal,hperm,now,summarize_perm hperm _ _⟩
  · have hbound := length_le_measure (fun _ _ _ h => remaining_lt hn h) hrun
    simpa [remaining,initial] using hbound

/-- Three requests by two workers. -/
def trio : Load := ⟨["a","b"],by decide,2,.totalRequests 3,0⟩

def sample (i : ℕ) : RequestResult := ⟨true,1,none,i⟩

/-- The second worker overtakes the first. -/
def overtaken : List Event :=
  [.begin 0,.resume 0 0,.resume 1 0,.resume 1 1,.resume 1 2,.resume 0 3,.gather 3]

theorem run_load_issues_exactly_overtaken :
    Load.ofArgs ["a","b"] 2 (some 3) none 0 = .ok trio ∧ (1 : ℤ) ≤ 2 ∧
    ∃ m point, run (step trio sample) (initial trio) overtaken = some (.returned m point) ∧
      m.pool.results = [sample 1,sample 2,sample 0] ∧ m.sends.length = 3 ∧
      ∃ now, point = summarize 2 (now - m.start) [sample 0,sample 1,sample 2] := by
  have hL : Load.ofArgs ["a","b"] 2 (some 3) none 0 = .ok trio := rfl
  have hrun : run (step trio sample) (initial trio) overtaken = some (.returned
      ⟨0,⟨3,[.finished,.finished],[sample 1,sample 2,sample 0]⟩,["a","b","a"]⟩
      (summarize 2 (3-0) [sample 1,sample 2,sample 0])) := rfl
  obtain ⟨-,hreturned,-,-⟩ := run_load_issues_exactly hL (by decide) sample hrun
  obtain ⟨hlength,-,hpoint⟩ := hreturned _ _ rfl
  exact ⟨hL,by decide,_,_,hrun,rfl,hlength,hpoint⟩

end LoadRunner

end AtlasCompliance.Infra
