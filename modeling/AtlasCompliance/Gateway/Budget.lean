import AtlasCompliance.Lib.Expiring
import AtlasCompliance.Lib.Transition
import AtlasCompliance.Java.LocalDate

/-! The daily budget of the gateway as requests interleave: `wouldExceed` and `record` each compute
their day key first and run their Redis commands later, so midnight can fall anywhere. -/
namespace AtlasCompliance.Gateway
open Expiring Transition Java

/-- `ResilienceProperties`: the configured daily cap, 100 when not positive. -/
def budgetDailyCapUnits (configured : ℚ) : ℚ := if 0 < configured then configured else 100

namespace RedisBudgetGuard

def KEY_PREFIX : String := "atlas:budget:"

/-- Two days in the milliseconds of Redis's clock. -/
def TTL : ℕ := 172800*1000

/-- `RedisBudgetGuard.key` on a UTC day. -/
def key (user : String) (day : ℕ) : String :=
  KEY_PREFIX ++ user ++ ":" ++ String.ofList (LocalDate.basicText day)

theorem key_inj {user user' : String} {day day' : ℕ} (h : key user day = key user' day') :
    user = user' ∧ day = day' := by
  have hchars := congrArg (fun s => s.toList.reverse) h
  simp only [key,String.toList_append,List.reverse_append,String.toList_ofList,List.append_assoc] at hchars
  change (LocalDate.basicText day).reverse ++ ':'::_ = (LocalDate.basicText day').reverse ++ ':'::_
    at hchars
  obtain ⟨hday,huser⟩ := Delimited.append_cons_inj ':'
    (by simpa using LocalDate.colon_not_mem_basicText day)
    (by simpa using LocalDate.colon_not_mem_basicText day') hchars
  exact ⟨String.toList_injective (by simpa using huser),LocalDate.basicText_injective (by simpa using hday)⟩

/-- `wouldExceed` once the spend is read; a missing key counts as nothing spent. -/
def wouldExceed (dailyCapUnits : ℚ) (current : Option ℚ) (estimatedCost : ℚ) : Bool :=
  dailyCapUnits < current.getD 0 + max 0 estimatedCost

abbrev Cell : Type := Option (Entry ℕ ℚ)

/-- `INCRBYFLOAT`: a live key keeps its deadline, a new one has none. -/
def incrByFloat (now : ℕ) (cost : ℚ) (cell : Cell) : Cell :=
  some ⟨(read now cell).getD 0 + cost,(cell.filter fun e => e.Live now).bind Entry.deadline⟩

/-- `EXPIRE`, which a missing key ignores. -/
def expire (now : ℕ) (cell : Cell) : Cell :=
  (cell.filter fun e => e.Live now).map fun e => write now (some TTL) e.value

end RedisBudgetGuard
open RedisBudgetGuard

/-- The guard of the configuration: its cap is positive. -/
structure RedisBudgetGuard where
  dailyCapUnits : ℚ
  cap_pos : 0 < dailyCapUnits

/-- The guard that the configuration builds. -/
def RedisBudgetGuard.ofConfigured (configured : ℚ) : RedisBudgetGuard :=
  ⟨budgetDailyCapUnits configured,by unfold budgetDailyCapUnits; split_ifs with h <;> [exact h; norm_num]⟩

/-- How far a request of the controller is with the budget guard: a call of `wouldExceed` has its
key, the check passed, a call of `record` has its key, or has incremented it. -/
inductive Stage where
  | checking (day : ℕ) (estimatedCost : ℚ)
  | admitted
  | recording (day : ℕ) (actualCost : ℚ)
  | expiring (day : ℕ)
  | finished
  deriving DecidableEq

/-- Between the check and the increment of the record; a check that midnight overtook before it
read the spend is there already. -/
def Stage.pending (today : ℕ) : Stage → Bool
  | .checking day _ => day < today
  | .admitted | .recording _ _ => true
  | .expiring _ | .finished => false

structure Request where
  user : String
  stage : Stage
  deriving DecidableEq

/-- The clock, the budget keys, all requests so far, and every increment that was executed. -/
structure BudgetState where
  now : ℕ
  db : String → RedisBudgetGuard.Cell
  requests : List Request
  recorded : List (String × ℚ)

namespace BudgetState

def today (s : BudgetState) : ℕ := LocalDate.now s.now

/-- The request at `i` goes on to `stage`. -/
def goTo (s : BudgetState) (i : ℕ) (r : Request) (stage : Stage) : BudgetState :=
  {s with requests := s.requests.set i {r with stage}}

/-- The costs recorded under a key. -/
def spend (s : BudgetState) (key : String) : ℚ :=
  ((s.recorded.filter fun e => e.1 == key).map Prod.snd).sum

def inFlight (s : BudgetState) (user : String) : ℕ :=
  s.requests.countP fun r => r.user == user && r.stage.pending s.today

end BudgetState

/-- What can happen next: time passes, a request starts its check, reads the spend, ends without a
charge (rejected input, cache hit or failure), starts its record, or runs a command of it. -/
inductive BudgetAction where
  | tick (millis : ℕ)
  | check (user : String) (estimatedCost : ℚ)
  | get (i : ℕ)
  | leave (i : ℕ)
  | record (i : ℕ) (actualCost : ℚ)
  | incr (i : ℕ)
  | expire (i : ℕ)
  deriving DecidableEq

namespace RedisBudgetGuard
variable (B : RedisBudgetGuard)

/-- One step of one request on its stage. -/
def advance (s : BudgetState) (i : ℕ) (r : Request) : BudgetAction → Option BudgetState
  | .get _ => match r.stage with
    | .checking day estimatedCost =>
      if wouldExceed B.dailyCapUnits (read s.now (s.db (key r.user day))) estimatedCost
      then some (s.goTo i r .finished) else some (s.goTo i r .admitted)
    | .admitted | .recording _ _ | .expiring _ | .finished => none
  | .leave _ => match r.stage with
    | .admitted => some (s.goTo i r .finished)
    | .checking _ _ | .recording _ _ | .expiring _ | .finished => none
  | .record _ actualCost => match r.stage with
    | .admitted =>
      if actualCost ≤ 0 then some (s.goTo i r .finished)
      else some (s.goTo i r (.recording s.today actualCost))
    | .checking _ _ | .recording _ _ | .expiring _ | .finished => none
  | .incr _ => match r.stage with
    | .recording day actualCost =>
      some {s.goTo i r (.expiring day) with
        db := Function.update s.db (key r.user day) (incrByFloat s.now actualCost (s.db (key r.user day))),
        recorded := (key r.user day,actualCost)::s.recorded}
    | .checking _ _ | .admitted | .expiring _ | .finished => none
  | .expire _ => match r.stage with
    | .expiring day =>
      some {s.goTo i r .finished with
        db := Function.update s.db (key r.user day) (RedisBudgetGuard.expire s.now (s.db (key r.user day)))}
    | .checking _ _ | .admitted | .recording _ _ | .finished => none
  | .tick _ | .check _ _ => none

def step (s : BudgetState) (a : BudgetAction) : Option BudgetState :=
  match a with
  | .tick millis => some {s with now := s.now + millis}
  | .check user estimatedCost =>
    some {s with requests := s.requests ++ [⟨user,.checking s.today estimatedCost⟩]}
  | .get i | .leave i | .record i _ | .incr i | .expire i =>
    s.requests[i]?.bind fun r => B.advance s i r a

variable {B : RedisBudgetGuard}

/-- Everything a step can do, guards included. -/
inductive Moves (B : RedisBudgetGuard) (s : BudgetState) : BudgetAction → BudgetState → Prop where
  | tick (millis : ℕ) : Moves B s (.tick millis) {s with now := s.now + millis}
  | check (user : String) (estimatedCost : ℚ) : Moves B s (.check user estimatedCost)
      {s with requests := s.requests ++ [⟨user,.checking s.today estimatedCost⟩]}
  | pass (i : ℕ) (r : Request) (day : ℕ) (estimatedCost : ℚ) : s.requests[i]? = some r →
      r.stage = .checking day estimatedCost →
      wouldExceed B.dailyCapUnits (read s.now (s.db (key r.user day))) estimatedCost = false →
      Moves B s (.get i) (s.goTo i r .admitted)
  | finish (a : BudgetAction) (i : ℕ) (r : Request) : s.requests[i]? = some r →
      Moves B s a (s.goTo i r .finished)
  | record (i : ℕ) (r : Request) (actualCost : ℚ) : s.requests[i]? = some r →
      r.stage = .admitted → Moves B s (.record i actualCost) (s.goTo i r (.recording s.today actualCost))
  | incr (i : ℕ) (r : Request) (day : ℕ) (actualCost : ℚ) : s.requests[i]? = some r →
      r.stage = .recording day actualCost →
      Moves B s (.incr i) {s.goTo i r (.expiring day) with
        db := Function.update s.db (key r.user day) (incrByFloat s.now actualCost (s.db (key r.user day))),
        recorded := (key r.user day,actualCost)::s.recorded}
  | expire (i : ℕ) (r : Request) (day : ℕ) : s.requests[i]? = some r → r.stage = .expiring day →
      Moves B s (.expire i) {s.goTo i r .finished with
        db := Function.update s.db (key r.user day) (RedisBudgetGuard.expire s.now (s.db (key r.user day)))}

theorem step_moves {s t : BudgetState} {a : BudgetAction} (h : B.step s a = some t) :
    Moves B s a t := by
  cases a with
  | tick millis => cases h; exact .tick millis
  | check user estimatedCost => cases h; exact .check user estimatedCost
  | get i =>
    obtain ⟨r,hr,h⟩ := Option.bind_eq_some_iff.mp h
    simp only [advance] at h
    split at h
    · split at h
      · cases h; exact .finish _ i r hr
      · cases h; exact .pass i r _ _ hr ‹_› (Bool.eq_false_iff.mpr ‹_›)
    all_goals cases h
  | leave i =>
    obtain ⟨r,hr,h⟩ := Option.bind_eq_some_iff.mp h
    simp only [advance] at h
    split at h
    · cases h; exact .finish _ i r hr
    all_goals cases h
  | record i actualCost =>
    obtain ⟨r,hr,h⟩ := Option.bind_eq_some_iff.mp h
    simp only [advance] at h
    split at h
    · split at h
      · cases h; exact .finish _ i r hr
      · cases h; exact .record i r actualCost hr ‹_›
    all_goals cases h
  | incr i =>
    obtain ⟨r,hr,h⟩ := Option.bind_eq_some_iff.mp h
    simp only [advance] at h
    split at h
    · cases h; exact .incr i r _ _ hr ‹_›
    all_goals cases h
  | expire i =>
    obtain ⟨r,hr,h⟩ := Option.bind_eq_some_iff.mp h
    simp only [advance] at h
    split at h
    · cases h; exact .expire i r _ hr ‹_›
    all_goals cases h

/-- Nothing was requested or recorded yet. -/
def start (now : ℕ) : BudgetState := ⟨now,fun _ => none,[],[]⟩

/-- A step that leaves at most `k` requests of the user in flight and charges them at most `M`. -/
def Bounded (B : RedisBudgetGuard) (user : String) (k : ℕ) (M : ℚ) (s : BudgetState)
    (a : BudgetAction) : Prop :=
  (∀ t ∈ B.step s a, t.inFlight user ≤ k) ∧
    match a with
    | .record i actualCost => ∀ r ∈ s.requests[i]?, r.user = user → 0 ≤ actualCost ∧ actualCost ≤ M
    | .tick _ | .check _ _ | .get _ | .leave _ | .incr _ | .expire _ => True

instance (user : String) (k : ℕ) (M : ℚ) (s : BudgetState) (a : BudgetAction) :
    Decidable (B.Bounded user k M s a) := by
  unfold Bounded
  cases a <;> infer_instance

end RedisBudgetGuard

/-! ### What a request in flight can still add to a day -/

/-- An increment of day `d` may follow without another check against that day. -/
def Stage.mayAdd (today d : ℕ) : Stage → Bool
  | .checking day _ => day < d && today ≤ d
  | .admitted => today ≤ d
  | .recording day _ => day == d
  | .expiring _ | .finished => false

theorem Stage.pending_of_mayAdd {today d : ℕ} (hd : d ≤ today) {st : Stage}
    (h : st.mayAdd today d = true) : st.pending today = true := by
  cases st <;> simp_all [mayAdd,pending]
  omega

theorem Stage.mayAdd_anti {today later d : ℕ} (hle : today ≤ later) {st : Stage}
    (h : st.mayAdd later d = true) : st.mayAdd today d = true := by
  cases st <;> simp_all [mayAdd]
  · omega
  · omega

/-- The day of the key a stage holds, if any. -/
def Stage.day? : Stage → Option ℕ
  | .checking day _ | .recording day _ | .expiring day => some day
  | .admitted | .finished => none

namespace BudgetState

/-- The requests of a user that may still add to day `d`. -/
def claims (s : BudgetState) (user : String) (d : ℕ) : ℕ :=
  s.requests.countP fun r => r.user == user && r.stage.mayAdd s.today d

theorem claims_le_inFlight (s : BudgetState) (user : String) {d : ℕ} (hd : d ≤ s.today) :
    s.claims user d ≤ s.inFlight user := by
  refine List.countP_mono_left fun r _ h => ?_
  rw [Bool.and_eq_true] at h ⊢
  exact ⟨h.1,Stage.pending_of_mayAdd hd h.2⟩

theorem countP_set_add {p : Request → Bool} {l : List Request} {i : ℕ} {r q : Request}
    (h : l[i]? = some r) :
    (l.set i q).countP p + (if p r then 1 else 0) = l.countP p + if p q then 1 else 0 := by
  obtain ⟨hi,rfl⟩ := List.getElem?_eq_some_iff.mp h
  have hpos : p l[i] = true → 0 < l.countP p := fun hp =>
    List.countP_pos_iff.mpr ⟨_,List.getElem_mem hi,hp⟩
  rw [List.countP_set hi]
  split_ifs with h1 h2 <;> have := hpos <;> simp_all

theorem claims_append {s t : BudgetState} {r : Request}
    (ht : t = {s with requests := s.requests ++ [r]}) (user : String) (d : ℕ) :
    t.claims user d =
      s.claims user d + if r.user = user ∧ r.stage.mayAdd s.today d = true then 1 else 0 := by
  subst ht
  simp only [claims,today,List.countP_append,List.countP_singleton,Bool.and_eq_true,beq_iff_eq]
  congr

theorem spend_cons {s t : BudgetState} {key : String} {actualCost : ℚ}
    (ht : t.recorded = (key,actualCost)::s.recorded) (key' : String) :
    t.spend key' = s.spend key' + if key = key' then actualCost else 0 := by
  by_cases hkey : key = key'
  · simp [spend,ht,hkey,add_comm]
  · simp [spend,ht,hkey]

/-- A request that moves to a stage that may add no more than before. -/
theorem claims_goTo_le {s : BudgetState} {i : ℕ} {r : Request} {st : Stage} {user : String} {d : ℕ}
    (hr : s.requests[i]? = some r)
    (h : r.user = user → st.mayAdd s.today d = true → r.stage.mayAdd s.today d = true) :
    (s.goTo i r st).claims user d ≤ s.claims user d := by
  have hset := countP_set_add (p := fun r => r.user == user && r.stage.mayAdd s.today d)
    (q := {r with stage := st}) hr
  dsimp only at hset
  have hone : (if (r.user == user && st.mayAdd s.today d) = true then 1 else 0) ≤
      if (r.user == user && r.stage.mayAdd s.today d) = true then 1 else 0 := by
    by_cases huser : r.user = user
    · by_cases hst : st.mayAdd s.today d <;> simp [huser,hst,h]
    · simp [huser]
  change ((s.requests.set i {r with stage := st}).countP fun q =>
    q.user == user && q.stage.mayAdd s.today d) ≤ _
  unfold claims
  omega

/-- A request of the user that gives up what it might have added. -/
theorem claims_goTo_lt {s : BudgetState} {i : ℕ} {r : Request} {st : Stage} {d : ℕ}
    (hr : s.requests[i]? = some r) (hbefore : r.stage.mayAdd s.today d = true)
    (hafter : st.mayAdd s.today d = false) :
    (s.goTo i r st).claims r.user d + 1 = s.claims r.user d := by
  have hset := countP_set_add (p := fun q => q.user == r.user && q.stage.mayAdd s.today d)
    (q := {r with stage := st}) hr
  simp only [claims,goTo,today] at *
  simp_all

end BudgetState

namespace RedisBudgetGuard
variable {B : RedisBudgetGuard} {user : String} {k : ℕ} {M : ℚ}

/-- The budget keys tell the spend of their day while it matters, and no day can end above the cap
by more than `k` charges: what was spent, with `M` for each request that may still add to it. -/
structure Spent (B : RedisBudgetGuard) (user : String) (k : ℕ) (M : ℚ) (s : BudgetState) : Prop where
  flight : s.inFlight user ≤ k
  days : ∀ r ∈ s.requests, ∀ d ∈ r.stage.day?, d ≤ s.today
  costs : ∀ r ∈ s.requests, r.user = user → ∀ day c, r.stage = .recording day c → c ≤ M
  fresh : ∀ d, s.today < d → s.spend (key user d) = 0
  kept : ∀ d, ∀ e ∈ s.db (key user d), ∀ last ∈ e.deadline, (d + 2)*LocalDate.MILLIS_PER_DAY ≤ last
  stored : ∀ d, s.today ≤ d + 1 →
    ((s.db (key user d)).map Entry.value).getD 0 = s.spend (key user d)
  bound : ∀ d, d ≤ s.today →
    s.spend (key user d) + s.claims user d*M ≤ B.dailyCapUnits + k*M

theorem Spent.live {s : BudgetState} (h : Spent B user k M s) {d : ℕ} (hd : s.today ≤ d + 1) :
    ∀ e ∈ s.db (key user d), e.Live s.now := by
  intro e he last hlast
  have hkept := h.kept d e he last hlast
  have hday : s.now < (d + 2)*LocalDate.MILLIS_PER_DAY := by
    simp only [BudgetState.today,LocalDate.now,LocalDate.MILLIS_PER_DAY] at hd ⊢
    omega
  omega

theorem Spent.filter_live {s : BudgetState} (h : Spent B user k M s) {d : ℕ} (hd : s.today ≤ d + 1) :
    ((s.db (key user d)).filter fun e => e.Live s.now) = s.db (key user d) := by
  cases hcell : s.db (key user d) with
  | none => rfl
  | some e => simp [Option.filter,h.live hd e (by rw [hcell]; rfl)]

theorem Spent.read_eq {s : BudgetState} (h : Spent B user k M s) {d : ℕ} (hd : s.today ≤ d + 1) :
    (read s.now (s.db (key user d))).getD 0 = s.spend (key user d) := by
  rw [Expiring.read,h.filter_live hd,h.stored d hd]

theorem Spent.init (hM : 0 ≤ M) (now : ℕ) : Spent B user k M (start now) where
  flight := by simp [start,BudgetState.inFlight]
  days := by simp [start]
  costs := by simp [start]
  fresh := fun d _ => by simp [start,BudgetState.spend]
  kept := by simp [start]
  stored := fun d _ => by simp [start,BudgetState.spend]
  bound := fun d _ => by
    have hk : 0 ≤ (k : ℚ)*M := mul_nonneg (Nat.cast_nonneg k) hM
    simpa [start,BudgetState.spend,BudgetState.claims] using add_nonneg B.cap_pos.le hk

/-- A request goes on, and what may still be added leaves the bound. -/
theorem Spent.goTo {s : BudgetState} (h : Spent B user k M s) {i : ℕ} {r : Request} {st : Stage}
    (hday : ∀ d ∈ st.day?, d ≤ s.today)
    (hcost : r.user = user → ∀ day c, st = .recording day c → c ≤ M)
    (hflight : (s.goTo i r st).inFlight user ≤ k)
    (hbound : ∀ d, d ≤ s.today →
      s.spend (key user d) + (s.goTo i r st).claims user d*M ≤ B.dailyCapUnits + k*M) : Spent B user k M (s.goTo i r st) where
  flight := hflight
  days := fun q hq d hd => by
    rcases List.mem_or_eq_of_mem_set hq with hq | rfl
    · exact h.days q hq d hd
    · exact hday d hd
  costs := fun q hq huser day c hst => by
    rcases List.mem_or_eq_of_mem_set hq with hq | rfl
    · exact h.costs q hq huser day c hst
    · exact hcost huser day c hst
  fresh := h.fresh
  kept := h.kept
  stored := h.stored
  bound := hbound

/-- A stage that may add no more than the one before keeps the bound. -/
theorem Spent.bound_goTo {s : BudgetState} (h : Spent B user k M s) (hM : 0 ≤ M) {i : ℕ} {r : Request}
    {st : Stage} (hr : s.requests[i]? = some r) {d : ℕ} (hd : d ≤ s.today)
    (hst : r.user = user → st.mayAdd s.today d = true → r.stage.mayAdd s.today d = true) :
    s.spend (key user d) + (s.goTo i r st).claims user d*M ≤ B.dailyCapUnits + k*M := by
  have hclaims : ((s.goTo i r st).claims user d : ℚ) ≤ s.claims user d :=
    Nat.cast_le.mpr (BudgetState.claims_goTo_le hr hst)
  have hmul := mul_le_mul_of_nonneg_right hclaims hM
  linarith [h.bound d hd]

/-- At most `k` claims on a day whose spend is within the cap. -/
theorem bound_of_spend_le {s t : BudgetState} (hM : 0 ≤ M) {d : ℕ} (hd : d ≤ t.today)
    (hspend : s.spend (key user d) ≤ B.dailyCapUnits) (hflight : t.inFlight user ≤ k) :
    s.spend (key user d) + t.claims user d*M ≤ B.dailyCapUnits + k*M := by
  have hclaims : (t.claims user d : ℚ) ≤ k :=
    Nat.cast_le.mpr ((t.claims_le_inFlight user hd).trans hflight)
  have hmul := mul_le_mul_of_nonneg_right hclaims hM
  linarith

/-- A command on one budget key leaves the keys of other users and days alone. -/
theorem update_key (db : String → Cell) (user' user : String) (day : ℕ) (f : Cell → Cell) (d : ℕ) :
    Function.update db (key user' day) (f (db (key user' day))) (key user d) =
      if user' = user ∧ day = d then f (db (key user d)) else db (key user d) := by
  by_cases hown : user' = user ∧ day = d
  · simp [hown]
  · have hkey : key user d ≠ key user' day := fun he =>
      hown ⟨(key_inj he).1.symm,(key_inj he).2.symm⟩
    simp [hown,Function.update_of_ne hkey]

/-- At midnight nothing was recorded under the keys of the new days. -/
theorem Spent.tick {s : BudgetState} (h : Spent B user k M s) (hM : 0 ≤ M) (millis : ℕ)
    {t : BudgetState} (ht : t = {s with now := s.now + millis}) (hflight : t.inFlight user ≤ k) :
    Spent B user k M t := by
  have htoday : s.today ≤ t.today := by
    subst ht
    exact Nat.div_le_div_right (Nat.le_add_right _ _)
  have hspend : ∀ d, t.spend (key user d) = s.spend (key user d) := fun d => by rw [ht]; rfl
  refine ⟨hflight,?_,?_,fun d hd => ?_,?_,fun d hd => ?_,fun d hd => ?_⟩
  · intro r hr d hd
    exact (h.days r (by rw [ht] at hr; exact hr) d hd).trans htoday
  · subst ht
    exact h.costs
  · rw [hspend]
    exact h.fresh d (htoday.trans_lt hd)
  · subst ht
    exact h.kept
  · have hdb : t.db = s.db := by rw [ht]
    rw [hspend,hdb]
    exact h.stored d (htoday.trans hd)
  · rw [hspend]
    by_cases hold : d ≤ s.today
    · have hclaims : (t.claims user d : ℚ) ≤ s.claims user d := by
        have hrequests : t.requests = s.requests := by rw [ht]
        rw [BudgetState.claims,hrequests]
        refine Nat.cast_le.mpr (List.countP_mono_left fun r _ hr => ?_)
        rw [Bool.and_eq_true] at hr ⊢
        exact ⟨hr.1,Stage.mayAdd_anti htoday hr.2⟩
      have hmul := mul_le_mul_of_nonneg_right hclaims hM
      linarith [h.bound d hold]
    · exact bound_of_spend_le hM hd ((h.fresh d (not_le.mp hold)).trans_le B.cap_pos.le) hflight

/-- A new check has the key of today, against which it will meet the cap. -/
theorem Spent.check {s : BudgetState} (h : Spent B user k M s) (caller : String)
    (estimatedCost : ℚ) {t : BudgetState}
    (ht : t = {s with requests := s.requests ++ [⟨caller,.checking s.today estimatedCost⟩]})
    (hflight : t.inFlight user ≤ k) : Spent B user k M t := by
  have hrequest : ∀ r ∈ t.requests, r ∈ s.requests ∨ r = ⟨caller,.checking s.today estimatedCost⟩ := by
    intro r hr
    rw [ht] at hr
    simpa using hr
  refine ⟨hflight,fun r hr d hd => ?_,fun r hr huser day c hst => ?_,?_,?_,?_,fun d hd => ?_⟩
  · have htoday : t.today = s.today := by rw [ht]; rfl
    rw [htoday]
    rcases hrequest r hr with hr | rfl
    · exact h.days r hr d hd
    · cases hd
      exact le_rfl
  · rcases hrequest r hr with hr | rfl
    · exact h.costs r hr huser day c hst
    · cases hst
  · subst ht
    exact h.fresh
  · subst ht
    exact h.kept
  · subst ht
    exact h.stored
  · have hd : d ≤ s.today := by
      subst ht
      exact hd
    have hnone : Stage.mayAdd s.today d (.checking s.today estimatedCost) = false := by
      simp [Stage.mayAdd,not_lt.mpr hd]
    have hspend : t.spend (key user d) = s.spend (key user d) := by rw [ht]; rfl
    rw [hspend,BudgetState.claims_append ht]
    simpa [hnone] using h.bound d hd

/-- A check that passes against the key of today saw that day's spend within the cap; one against
an older key was counted as a claim on today all along. -/
theorem Spent.pass {s : BudgetState} (h : Spent B user k M s) (hM : 0 ≤ M) {i : ℕ} {r : Request}
    {day : ℕ} {estimatedCost : ℚ} (hr : s.requests[i]? = some r)
    (hst : r.stage = .checking day estimatedCost)
    (hok : wouldExceed B.dailyCapUnits (read s.now (s.db (key r.user day))) estimatedCost = false)
    (hflight : (s.goTo i r .admitted).inFlight user ≤ k) :
    Spent B user k M (s.goTo i r .admitted) := by
  refine h.goTo (fun d hd => by cases hd) (fun _ _ _ he => by cases he) hflight fun d hd => ?_
  have hday : day ≤ s.today := h.days r (List.mem_of_getElem? hr) day (by rw [hst]; rfl)
  by_cases hown : r.user = user ∧ day = d ∧ s.today = d
  · obtain ⟨rfl,rfl,htoday⟩ := hown
    rw [wouldExceed,h.read_eq (htoday.le.trans (Nat.le_succ _)),decide_eq_false_iff_not,not_lt] at hok
    exact bound_of_spend_le hM hd (by linarith [le_max_left 0 estimatedCost]) hflight
  · refine h.bound_goTo hM hr hd fun huser hmay => ?_
    have hne : ¬ (day = d ∧ s.today = d) := fun he => hown ⟨huser,he⟩
    simp only [Stage.mayAdd,decide_eq_true_eq] at hmay
    rw [hst]
    simp only [Stage.mayAdd,Bool.and_eq_true,decide_eq_true_eq]
    omega

theorem Spent.record {s : BudgetState} (h : Spent B user k M s) (hM : 0 ≤ M) {i : ℕ} {r : Request}
    {actualCost : ℚ} (hr : s.requests[i]? = some r) (hst : r.stage = .admitted)
    (hcost : r.user = user → actualCost ≤ M)
    (hflight : (s.goTo i r (.recording s.today actualCost)).inFlight user ≤ k) :
    Spent B user k M (s.goTo i r (.recording s.today actualCost)) := by
  refine h.goTo (fun d hd => ?_) (fun huser day c he => ?_) hflight fun d hd => ?_
  · cases hd
    exact le_rfl
  · cases he
    exact hcost huser
  · refine h.bound_goTo hM hr hd fun _ hmay => ?_
    rw [hst]
    simpa [Stage.mayAdd] using (beq_iff_eq.mp hmay).le

/-- The increment of a day pays for the claim its request had on that day. -/
theorem Spent.incr {s : BudgetState} (h : Spent B user k M s) (hM : 0 ≤ M) {i : ℕ} {r : Request}
    {day : ℕ} {actualCost : ℚ} (hr : s.requests[i]? = some r)
    (hst : r.stage = .recording day actualCost) {t : BudgetState}
    (ht : t = {s.goTo i r (.expiring day) with
      db := Function.update s.db (key r.user day) (incrByFloat s.now actualCost (s.db (key r.user day))),
      recorded := (key r.user day,actualCost)::s.recorded})
    (hflight : t.inFlight user ≤ k) : Spent B user k M t := by
  have hday : day ≤ s.today := h.days r (List.mem_of_getElem? hr) day (by rw [hst]; rfl)
  have hgone : Spent B user k M (s.goTo i r (.expiring day)) :=
    h.goTo (fun d hd => by cases hd; exact hday) (fun _ _ _ he => by cases he)
      (by rw [ht] at hflight; exact hflight) fun d hd =>
        h.bound_goTo hM hr hd fun _ hmay => by cases hmay
  have hspend : ∀ d, t.spend (key user d) =
      s.spend (key user d) + if r.user = user ∧ day = d then actualCost else 0 := by
    intro d
    rw [BudgetState.spend_cons (s := s) (by rw [ht])]
    congr 2
    exact propext ⟨key_inj,fun he => by rw [he.1,he.2]⟩
  have hcell : ∀ d, t.db (key user d) = if r.user = user ∧ day = d then
      incrByFloat s.now actualCost (s.db (key user d)) else s.db (key user d) := by
    subst ht
    exact update_key s.db r.user user day (incrByFloat s.now actualCost)
  have hnow : t.today = s.today := by rw [ht]; rfl
  refine ⟨hflight,?_,?_,fun d hd => ?_,fun d e he last hlast => ?_,fun d hd => ?_,fun d hd => ?_⟩
  · subst ht
    exact hgone.days
  · subst ht
    exact hgone.costs
  · have hne : day ≠ d := by omega
    simpa [hspend,hne] using h.fresh d (hnow ▸ hd)
  · rw [hcell] at he
    split_ifs at he with hown
    · cases he
      obtain ⟨old,hold,hlast⟩ := Option.mem_bind_iff.mp hlast
      exact h.kept d old (Option.mem_filter_iff.mp hold).1 last hlast
    · exact h.kept d e he last hlast
  · rw [hnow] at hd
    rw [hcell,hspend]
    split_ifs with hown
    · simp [incrByFloat,h.read_eq hd]
    · simpa using h.stored d hd
  · have hclaims : t.claims user d = (s.goTo i r (.expiring day)).claims user d := by rw [ht]; rfl
    rw [hspend,hclaims]
    split_ifs with hown
    · obtain ⟨rfl,rfl⟩ := hown
      have hpaid := BudgetState.claims_goTo_lt hr
        (show r.stage.mayAdd s.today day = true by rw [hst]; simp [Stage.mayAdd])
        (show (Stage.expiring day).mayAdd s.today day = false from rfl)
      have hcost := h.costs r (List.mem_of_getElem? hr) rfl day actualCost hst
      have hbound := h.bound day hday
      rw [← hpaid] at hbound
      push_cast at hbound
      linarith
    · rw [add_zero]
      exact hgone.bound d (hnow ▸ hd)

/-- Two days after any moment of a day the day's key may go. -/
theorem Spent.expire {s : BudgetState} (h : Spent B user k M s) (hM : 0 ≤ M) {i : ℕ} {r : Request}
    {day : ℕ} (hr : s.requests[i]? = some r) (hst : r.stage = .expiring day) {t : BudgetState}
    (ht : t = {s.goTo i r .finished with
      db := Function.update s.db (key r.user day) (RedisBudgetGuard.expire s.now (s.db (key r.user day)))})
    (hflight : t.inFlight user ≤ k) : Spent B user k M t := by
  have hday : day ≤ s.today := h.days r (List.mem_of_getElem? hr) day (by rw [hst]; rfl)
  have hgone : Spent B user k M (s.goTo i r .finished) :=
    h.goTo (fun d hd => by cases hd) (fun _ _ _ he => by cases he)
      (by rw [ht] at hflight; exact hflight) fun d hd =>
        h.bound_goTo hM hr hd fun _ hmay => by cases hmay
  have hcell : ∀ d, t.db (key user d) = if r.user = user ∧ day = d then
      RedisBudgetGuard.expire s.now (s.db (key user d)) else s.db (key user d) := by
    subst ht
    exact update_key s.db r.user user day (RedisBudgetGuard.expire s.now)
  refine ⟨hflight,?_,?_,?_,fun d e he last hlast => ?_,fun d hd => ?_,?_⟩
  · subst ht
    exact hgone.days
  · subst ht
    exact hgone.costs
  · subst ht
    exact hgone.fresh
  · rw [hcell] at he
    split_ifs at he with hown
    · obtain ⟨old,hold,rfl⟩ := Option.map_eq_some_iff.mp he
      cases hlast
      obtain ⟨-,rfl⟩ := hown
      simp only [BudgetState.today,LocalDate.now,LocalDate.MILLIS_PER_DAY,TTL] at hday ⊢
      omega
    · exact h.kept d e he last hlast
  · have hd : s.today ≤ d + 1 := by
      subst ht
      exact hd
    have hspend : t.spend (key user d) = s.spend (key user d) := by rw [ht]; rfl
    rw [hcell,hspend,← h.stored d hd]
    split_ifs with hown
    · rw [RedisBudgetGuard.expire,h.filter_live hd,Option.map_map]
      rfl
    · rfl
  · subst ht
    exact hgone.bound

/-- Every step keeps the accounting of the user's days. -/
theorem Spent.step {s t : BudgetState} {a : BudgetAction} (hM : 0 ≤ M) (h : Spent B user k M s)
    (hg : B.Bounded user k M s a) (hstep : B.step s a = some t) : Spent B user k M t := by
  have hflight := hg.1 t hstep
  cases step_moves hstep with
  | tick millis => exact h.tick hM millis rfl hflight
  | check caller estimatedCost => exact h.check caller estimatedCost rfl hflight
  | pass i r day estimatedCost hr hst hok => exact h.pass hM hr hst hok hflight
  | finish _ i r hr =>
    exact h.goTo (fun d hd => by cases hd) (fun _ _ _ he => by cases he) hflight fun d hd =>
      h.bound_goTo hM hr hd fun _ hmay => by cases hmay
  | record i r actualCost hr hst =>
    exact h.record hM hr hst (fun huser => (hg.2 r hr huser).2) hflight
  | incr i r day actualCost hr hst => exact h.incr hM hr hst rfl hflight
  | expire i r day hr hst => exact h.expire hM hr hst rfl hflight

/-- In every run that never has more than `k` requests of the user between check and record, each
charged at most `M`, the spend recorded under the key of any day stays within the cap and `k`
charges. -/
theorem spend_le (B : RedisBudgetGuard) (user : String) (k : ℕ) (M : ℚ) (hM : 0 ≤ M) (now : ℕ)
    (as : List BudgetAction) (hg : Guarded B.step (B.Bounded user k M) (start now) as)
    (t : BudgetState) (h : run B.step (start now) as = some t) (day : ℕ) :
    t.spend (key user day) ≤ B.dailyCapUnits + k*M := by
  have hspent := run_guarded_invariant (fun _ _ _ hs hgs hstep => Spent.step hM hs hgs hstep)
    (Spent.init hM now) hg h
  by_cases hday : day ≤ t.today
  · have hclaims : 0 ≤ (t.claims user day : ℚ)*M := mul_nonneg (Nat.cast_nonneg _) hM
    linarith [hspent.bound day hday]
  · rw [hspent.fresh day (not_le.mp hday)]
    exact add_nonneg B.cap_pos.le (mul_nonneg (Nat.cast_nonneg k) hM)

/-- Two requests of one user pass their checks before midnight with the cap not yet reached, and
both are charged the next day, one of them after a further check. -/
def midnightSchedule : List BudgetAction :=
  [.check "priya" 0,.get 0,.check "priya" 0,.get 1,.record 0 3,.tick 86400000,.incr 0,.expire 0,
    .record 1 3,.incr 1,.expire 1,.check "priya" 0,.get 2,.record 2 3,.incr 2,.check "priya" 0,.get 3]

theorem spend_le_midnightSchedule : ∃ t,
    run (ofConfigured 5).step (start 86399999) midnightSchedule = some t ∧
      (t.spend (key "priya" 0),t.spend (key "priya" 1)) = (3,6) ∧
      ∀ day, t.spend (key "priya" day) ≤ (ofConfigured 5).dailyCapUnits + (2 : ℕ)*3 := by
  have hrun : (run (ofConfigured 5).step (start 86399999) midnightSchedule).map
      (fun t => (t.spend (key "priya" 0),t.spend (key "priya" 1))) = some (3,6) := by
    decide +kernel
  obtain ⟨t,ht,hspend⟩ := Option.map_eq_some_iff.mp hrun
  exact ⟨t,ht,hspend,spend_le (ofConfigured 5) "priya" 2 3 (by norm_num) 86399999 midnightSchedule
    (by decide +kernel) t ht⟩

end RedisBudgetGuard
end AtlasCompliance.Gateway
