import Mathlib.Algebra.BigOperators.Group.Finset.Piecewise
import Mathlib.Order.Interval.Finset.Nat
import GreenLib.GreenBooks

/-!
# The green server never gets stuck

The newer `main.c` runs `n` server threads for `n` clients. A handler that cannot go on sleeps, and
as nothing guards the buffer, it is the other handlers that have to wake it. The server would be
stuck if the last thread that could run went to sleep, exited or waited for requests that nobody can
make any more.

That this does not happen is a matter of counting. A thread exits when a client has left, so there
are as many threads as clients (`balanced`). If all threads sleep because the buffer is full, every
client that is there has a `PRODUCER` request at one of them, so those with `CONSUMER` requests have
left, with all their requests served; but then the producers cannot have filled the buffer
(`starved`). A thread that waits for requests cares for no client, so there is a client that nobody
cares for, and it is free to make a call (`somebody_free`).
-/

namespace GreenLib

open Finset

namespace Client

/-- Whether a client has left, as a number, so that those who have can be counted. -/
def left (x : Client) : ℕ := if x.phase = .gone then 1 else 0

theorem left_of_ne {x : Client} (h : x.phase ≠ .gone) : x.left = 0 := if_neg h

/-- The client has made a call that has not been answered. -/
def Waits (x : Client) : Prop := ∃ r, x.phase = .asked r ∨ x.phase = .served r

end Client

namespace GreenServer

open Sched

variable {n k : ℕ} {limit : ℤ} {S : GreenServer n} {a a' : AMach (GreenPc n) (Shared n)} {i : ℕ}
  {c : Fin n} {l : Label (Option (Fin n)) (Fin n × Request)}

/-! ## Threads -/

/-- How many calls of `thread_create` are still to come, from where thread 0 is. -/
def toCreate (threads : ℕ) : GreenPc n → ℕ
  | .pool _ _ => threads
  | .creating left _ => left
  | _ => 0

/-- The ids suffice for the threads that are still to be created, so no thread has an id above
`threads`. -/
def Budget (S : GreenServer n) (a : AMach (GreenPc n) (Shared n)) : Prop :=
  ∃ u, a.frame 0 = .user u ∧ a.sched.newId + toCreate S.threads u ≤ S.threads + 1

theorem Sets.toCreate {g g' : Shared n} {u : GreenPc n} {left : ℕ}
    (h : Sets S g u (.create .recv) (fun r => .creating left (r.getD 0)) g') :
    toCreate S.threads u = left + 1 := by
  generalize hret : (fun r : Option ℕ => (GreenPc.creating left (r.getD 0) : GreenPc n)) = ret at h
  cases h with
  | start _ hk =>
    have hleft := congrFun hret none
    cases hleft
    exact hk
  | create =>
    have hleft := congrFun hret none
    cases hleft
    rfl

theorem Budget.next (h : Budget S a) (hset : SetUp a) (hs : AStep S.program a l a') :
    Budget S a' := by
  obtain ⟨u, hu, hle⟩ := h
  have hnew := hs.newId_le
  have hsame : a'.frame 0 = a.frame 0 → a'.sched.newId = a.sched.newId → Budget S a' :=
    fun hframe hid => ⟨u, hframe.trans hu, by rw [hid]; exact hle⟩
  have hcreate : ∀ {left r}, toCreate S.threads u = left + 1 →
      a'.frame 0 = .user (.creating left r) → Budget S a' := by
    intro left r hleft hframe
    refine ⟨_, hframe, ?_⟩
    change a'.sched.newId + left ≤ S.threads + 1
    omega
  cases hset.shape.steps hs with
  | lock _ hf _ _ hframe _ _ _ _ hid =>
    obtain rfl := Frame.user.inj (hu.symm.trans hf)
    exact ⟨_, by rw [hframe, Function.update_self], by rw [hid]; exact hle⟩
  | create _ hf hd _ h0 _ _ _ _ _ hframe =>
    obtain rfl := Frame.user.inj (hu.symm.trans hf)
    exact hcreate hd.toCreate
      (by rw [hframe, Function.update_of_ne (Ne.symm h0), Function.update_self])
  | notCreated _ hf hd _ hframe =>
    obtain rfl := Frame.user.inj (hu.symm.trans hf)
    exact hcreate hd.toCreate (by rw [hframe, Function.update_self])
  | resume _ hf hstep hframe =>
    obtain rfl := Frame.user.inj (hu.symm.trans hf)
    exact ⟨_, by rw [hframe, Function.update_self], by rw [hstep.registry.1]; exact hle⟩
  | act _ h0 _ hstep hframe =>
    exact hsame (by rw [hframe, Function.update_of_ne (Ne.symm h0)]) hstep.registry.1
  | exit _ _ _ hstep hframe => exact hsame (by rw [hframe]) hstep.registry.1
  | env _ hsched hframe => exact hsame (by rw [hframe]) (by rw [hsched])

theorem Budget.of_reach (ha : Reach S.program.aruns a) : Budget S a := by
  induction ha with
  | init h₀ => exact ⟨_, h₀.frame, by rw [h₀.newId, Nat.add_comm]; exact le_rfl⟩
  | step hr hs ih => exact ih.next (.of_reach hr) hs

/-- The server threads are among `1, …, threads`. -/
theorem Budget.le (h : Budget S a) (hi : Live a i) : i ≤ S.threads := by
  obtain ⟨u, -, hle⟩ := h
  have hlt := a.sched.place_lt hi.2
  omega

/-! ## Clients that have left -/

theorem Deal.left {u w : GreenPc n} {x x' : Client} {ch ch' : Role → ℕ}
    (hd : Deal c x ch u w x' ch') : Client.left x' = Client.left x := by
  have hboth : x.phase ≠ .gone → x'.phase ≠ .gone → Client.left x' = Client.left x := by
    intro hx hx'
    rw [Client.left_of_ne hx, Client.left_of_ne hx']
  cases hd with
  | recv hp => exact hboth (by rw [hp]; nofun) nofun
  | reply hp => exact hboth (by rw [hp]; nofun) nofun
  | init | immd | register | change | sleep => rfl

/-- **Threads and clients leave together.** In a step nobody leaves, or one thread and one client
do. -/
theorem Dealt.left (hd : Dealt S a a') :
    (∀ j, Live a j → Live a' j) ∧ total Client.left a'.g.client = total Client.left a.g.client ∨
    ∃ i, Live a i ∧ ¬ Live a' i ∧ (∀ j, j ≠ i → Live a j → Live a' j) ∧
      total Client.left a'.g.client = total Client.left a.g.client + 1 := by
  cases hd with
  | quiet hclient _ hold => exact .inl ⟨fun j hj => (hold j hj).1, by rw [hclient]⟩
  | @deal i c u w x ch ht hi hi' hf hf' hd hclient =>
    refine .inl ⟨fun j hj => ?_, ?_⟩
    · rcases eq_or_ne j i with rfl | hne
      · exact hi'
      · exact (ht.live j hne).mpr hj
    · have hmoved := total_update Client.left a.g.client c x
      rw [hd.left] at hmoved
      rw [hclient]
      exact Nat.add_right_cancel hmoved
  | welcome hinit hclient _ hlive =>
    refine .inl ⟨fun j hj => (hlive j).mpr hj, Finset.sum_congr rfl fun d _ => ?_⟩
    obtain ⟨m, hm⟩ := hclient d
    rw [hm, Client.left_of_ne (x := a.g.client d) (by rw [hinit d]; nofun)]
    exact Client.left_of_ne nofun
  | @leave i c ht hi hi' hx hclient =>
    refine .inr ⟨i, hi, hi', fun j hne hj => (ht.live j hne).mpr hj, ?_⟩
    have hmoved := total_update Client.left a.g.client c { a.g.client c with phase := .gone }
    rw [Client.left_of_ne (x := a.g.client c) (by rw [hx]; nofun)] at hmoved
    rw [hclient]
    exact hmoved
  | @ask c r hc hclient _ hlive =>
    refine .inl ⟨fun j hj => (hlive j).mpr hj, ?_⟩
    have hmoved := total_update Client.left a.g.client c ((a.g.client c).ask r)
    have hstay : Client.left (a.g.client c) = 0 := by
      rcases hc with ⟨hp, -⟩ | ⟨hp, -⟩ <;> exact Client.left_of_ne (by rw [hp]; nofun)
    rw [hstay] at hmoved
    rw [hclient]
    exact hmoved

/-- As many server threads have exited as clients have left, at any time. -/
def Together (S : GreenServer n) (a : AMach (GreenPc n) (Shared n)) : Prop :=
  total Client.left a.g.client = #{i ∈ Icc 1 S.threads | a.exited i = true}

theorem Together.next (h : Together S a) (hok : a.Ok) (hbudget : Budget S a)
    (hs : AStep S.program a l a') (hd : Dealt S a a') : Together S a' := by
  have hkept : ∀ {j}, j ≠ 0 → (Live a j → Live a' j) → (a'.exited j = true ↔ a.exited j = true) :=
    fun h0 hlive => hs.exited_iff hok fun hp => (hlive ⟨h0, hp⟩).2
  rcases hd.left with ⟨hlive, heq⟩ | ⟨i, hi, hi', hlive, heq⟩
  · rw [Together, heq, h]
    refine congrArg Finset.card (filter_congr fun j hj => ?_)
    exact (hkept (Nat.one_le_iff_ne_zero.mp (mem_Icc.mp hj).1) (hlive j)).symm
  · obtain ⟨hcreated, hrunning⟩ := (hok.placed i).mp hi.2
    have hexited : a'.exited i = true := by
      by_contra hnot
      exact hi' ⟨hi.1, ((hs.ok hok).placed i).mpr ⟨hs.created_kept hcreated, by simpa using hnot⟩⟩
    have hinsert : ({j ∈ Icc 1 S.threads | a'.exited j = true} : Finset ℕ) =
        insert i {j ∈ Icc 1 S.threads | a.exited j = true} := by
      ext j
      rw [mem_insert, mem_filter, mem_filter]
      rcases eq_or_ne j i with rfl | hne
      · have hmem : j ∈ Icc 1 S.threads :=
          mem_Icc.mpr ⟨Nat.one_le_iff_ne_zero.mpr hi.1, hbudget.le hi⟩
        simp [hmem, hexited]
      · rw [or_iff_right hne]
        refine and_congr_right fun hj => ?_
        exact hkept (Nat.one_le_iff_ne_zero.mp (mem_Icc.mp hj).1) (hlive j hne)
    rw [Together, heq, h, hinsert, card_insert_of_notMem]
    rw [mem_filter, hrunning]
    exact fun hmem => Bool.false_ne_true hmem.2

theorem Together.of_reach (hl : S.locked = false) (ha : Reach S.program.aruns a) :
    Together S a := by
  induction ha with
  | @init a h₀ =>
    have hg : a.g = .initialClientPool n S.limit := h₀.g
    have hnobody : ({i ∈ Icc 1 S.threads | a.exited i = true} : Finset ℕ) = ∅ :=
      filter_false_of_mem fun i _ => by rw [h₀.exited i]; exact Bool.false_ne_true
    rw [Together, hnobody, hg]
    exact total_eq_zero.mpr fun c => rfl
  | step hr hs ih =>
    exact ih.next hr.ok (.of_reach hr) hs
      ((freeStep hl hr hs).dealt (inv_of_reach hr) (.of_reach hr))

/-- The server threads that have not exited, those that are not created yet included. -/
def workers (S : GreenServer n) (a : AMach (GreenPc n) (Shared n)) : Finset ℕ :=
  {i ∈ Icc 1 S.threads | ¬ a.exited i = true}

/-- The clients that have not left, whether or not they have come. -/
def present (a : AMach (GreenPc n) (Shared n)) : Finset (Fin n) :=
  {c | ¬ (a.g.client c).phase = .gone}

/-- **There are as many threads as clients**, if the server was started with as many. -/
theorem balanced (h : Together S a) (hn : S.threads = n) : #(workers S a) = #(present a) := by
  have hthreads := card_filter_add_card_filter_not (s := Icc 1 S.threads)
    fun i => a.exited i = true
  have hclients := card_filter_add_card_filter_not (s := (univ : Finset (Fin n)))
    fun c => (a.g.client c).phase = .gone
  have hleft : total Client.left a.g.client = #{c | (a.g.client c).phase = .gone} := by
    rw [card_filter]
    rfl
  have hsame : total Client.left a.g.client = #{i ∈ Icc 1 S.threads | a.exited i = true} := h
  rw [Nat.card_Icc] at hthreads
  rw [card_univ, Fintype.card_fin] at hclients
  rw [workers, present]
  omega

theorem mem_workers (hok : a.Ok) (hbudget : Budget S a)
    (hall : ∀ i, 0 < i → i ≤ S.threads → a.created i = true) : i ∈ workers S a ↔ Live a i := by
  rw [workers, mem_filter, mem_Icc, Bool.not_eq_true]
  constructor
  · rintro ⟨⟨hpos, hle⟩, hexited⟩
    exact ⟨Nat.one_le_iff_ne_zero.mp hpos, (hok.placed i).mpr ⟨hall i hpos hle, hexited⟩⟩
  · intro hi
    exact ⟨⟨Nat.one_le_iff_ne_zero.mpr hi.1, hbudget.le hi⟩, ((hok.placed i).mp hi.2).2⟩

/-! ## Who is left when all threads sleep -/

/-- What a client with the id `o` contributes to the changes by a role, if it makes `m` changes in
all. -/
def quota (role : Role) (m : ℕ) (o : Option ℕ) : ℕ := if o.map roleOf = some role then m else 0

/-- Every second id is that of a producer, so each role gets half of all changes. -/
theorem sum_quota (role : Role) (m half : ℕ) :
    ∑ i ∈ range (2 * half), quota role m (some i) = half * m := by
  induction half with
  | zero => rw [Nat.mul_zero, range_zero, sum_empty, Nat.zero_mul]
  | succ half ih =>
    have heven : roleOf (2 * half) = .consumer := by simp [roleOf]
    have hodd : roleOf (2 * half + 1) = .producer := by simp [roleOf]
    rw [Nat.mul_succ, sum_range_succ, sum_range_succ, ih, Nat.succ_mul half]
    cases role <;> simp [quota, heven, hodd]

theorem total_quota {id : Fin n → Option ℕ} {m half : ℕ} (h : Numbered id m)
    (hall : ∀ c, id c ≠ none) (hn : n = 2 * half) (role : Role) :
    total (quota role k) id = half * k := by
  have hm : m = 2 * half := (h.eq_of_all hall).trans ((Fintype.card_fin n).trans hn)
  rw [h.total_eq hall, hm, sum_quota]

/-- **A role that is behind.** If the clients of the other role have made all their changes, and a
client of this role has not, then this role has made fewer changes. -/
theorem Books.changes_lt {half : ℕ} {role : Role} (h : Books k a) (hinv : (desk a).Inv)
    (hn : n = 2 * half) (hgiven : ∀ c, (a.g.client c).given ≠ none)
    (hops : ∀ c, (a.g.client c).ops = k ∨
      (a.g.client c).role = some role ∧ (a.g.client c).ops < k)
    (hone : ∃ c, (a.g.client c).role = some role ∧ (a.g.client c).ops < k) :
    a.g.changes role < a.g.changes role.other := by
  have hquota := fun r => total_quota (k := k) hinv.ids hgiven hn r
  have hother : total (Client.share role.other) a.g.client = half * k := by
    rw [← hquota role.other]
    refine Finset.sum_congr rfl fun c _ => ?_
    rcases hops c with he | ⟨hrole, -⟩
    · rw [← he]
      rfl
    · have hne : (a.g.client c).role ≠ some role.other := by
        rw [hrole]
        exact fun he => role.ne_other (Option.some.inj he)
      exact (if_neg hne).trans (if_neg hne).symm
  have hown : total (Client.share role) a.g.client < half * k := by
    rw [← hquota role]
    obtain ⟨c, hrole, hlt⟩ := hone
    refine Finset.sum_lt_sum (fun d _ => ?_) ⟨c, mem_univ c, ?_⟩
    · have hle : (a.g.client d).ops ≤ k := by
        rcases hops d with he | ⟨-, hlt⟩
        · exact he.le
        · exact hlt.le
      change quota role (a.g.client d).ops (a.g.client d).given ≤ quota role k (a.g.client d).given
      unfold quota
      split
      · exact hle
      · exact le_rfl
    · change (if (a.g.client c).role = some role then (a.g.client c).ops else 0) <
        (if (a.g.client c).role = some role then k else 0)
      rw [if_pos hrole, if_pos hrole]
      exact hlt
  rw [h.changes role, h.changes role.other, hother]
  exact hown

/-- **The server with all its threads**: what holds in every state after they have been created. -/
structure Staffed (S : GreenServer n) (k : ℕ) (a : AMach (GreenPc n) (Shared n)) : Prop where
  ok : a.Ok
  live : ∀ i, i ∈ workers S a ↔ Live a i
  balanced : #(workers S a) = #(present a)
  books : Books k a
  inv : (desk a).Inv
  undisturbed : Undisturbed a
  safe : a.g.buf.Safe S.limit a.g.changes
  queues : Queues a
  setUp : SetUp a

namespace Staffed

theorem of_reach (hl : S.locked = false) (hn : S.threads = n) (hlimit : 1 ≤ S.limit)
    (hmay : S.may = Client.program k) (ha : Reach S.program.aruns a)
    (hall : ∀ i, 0 < i → i ≤ S.threads → a.created i = true) : Staffed S k a where
  ok := ha.ok
  live _ := mem_workers ha.ok (.of_reach ha) hall
  balanced := GreenServer.balanced (.of_reach hl ha) hn
  books := .of_reach hl hmay ha
  inv := inv_of_reach ha
  undisturbed := .of_reach ha
  safe := safe_of_aruns (Int.one_pos.le.trans hlimit) ha
  queues := .of_reach hl hlimit ha
  setUp := .of_reach ha

/-- When every thread cares for a client, every client that is there is cared for, since there are
as many of them. -/
theorem covered (h : Staffed S k a) (hall : ∀ i, Live a i → ∃ c, cares (a.frame i) = some c)
    (hc : (a.g.client c).phase ≠ .gone) : Somebody cares a c := by
  have hown : ∀ i ∈ workers S a, ∃ d ∈ present a, cares (a.frame i) = some d := by
    intro i hi
    have hlive := (h.live i).mp hi
    obtain ⟨d, hd⟩ := hall i hlive
    obtain ⟨r, hr⟩ := served_of_cares h.inv hlive hd
    exact ⟨d, mem_filter.mpr ⟨mem_univ d, by rw [hr]; nofun⟩, hd⟩
  have hinj : ∀ i ∈ workers S a, ∀ j ∈ workers S a, cares (a.frame i) = cares (a.frame j) →
      i = j := by
    intro i hi j hj he
    have hlive := (h.live i).mp hi
    obtain ⟨d, hd⟩ := hall i hlive
    exact cares_inj h.inv h.undisturbed hlive ((h.live j).mp hj) hd (he.symm.trans hd)
  obtain ⟨i, hi, he⟩ :=
    taken_of_card h.balanced.ge hown hinj (mem_filter.mpr ⟨mem_univ c, hc⟩)
  exact ⟨i, (h.live i).mp hi, he⟩

/-- When some thread cares for nobody, there is a client that nobody cares for, by the same
count. -/
theorem uncovered (h : Staffed S k a) (hi : Live a i) (hfree : cares (a.frame i) = none) :
    ∃ c, (a.g.client c).phase ≠ .gone ∧ ¬ Somebody cares a c := by
  by_contra hno
  have hlt : #(present a) < #(workers S a) := by
    refine card_lt_of_none (g := fun i => cares (a.frame i)) (fun c hc => ?_) ((h.live i).mpr hi)
      hfree
    by_contra hnone
    refine hno ⟨c, (mem_filter.mp hc).2, fun ⟨j, hj, he⟩ => hnone ⟨j, (h.live j).mpr hj, he⟩⟩
  exact hlt.ne h.balanced.symm

/-- **Nobody starves.** The threads cannot all wait for places of a role, or be about to exit: the
role would be behind, and the buffer would have places for it. -/
theorem starved {half : ℕ} {role : Role} (h : Staffed S k a) (hn : n = 2 * half)
    (hlimit : 0 ≤ S.limit) (hplaces : a.g.buf.places role = 0)
    (hall : ∀ i, Live a i → ∃ c, cares (a.frame i) = some c ∧
      ((a.g.client c).phase = .served .tmnt ∨
        (a.g.client c).phase = .served (.op role) ∧ owes (a.frame i) = some c))
    (hi : Live a i) (howes : owes (a.frame i) = some c)
    (hc : (a.g.client c).phase = .served (.op role)) : False := by
  -- a client whose request waits has not made all its changes
  have hbehind : ∀ d, (a.g.client d).phase = .served (.op role) → Somebody owes a d →
      (a.g.client d).role = some role ∧ (a.g.client d).ops < k := by
    intro d hd hsome
    have hbook := h.books.client d
    rw [BookOf, hd] at hbook
    obtain ⟨hrole, hle, -, ⟨-, hops⟩ | ⟨hnot, -⟩⟩ := hbook
    · exact ⟨hrole, by omega⟩
    · exact absurd hsome hnot
  have hphase : ∀ d, (a.g.client d).phase = .gone ∨ (a.g.client d).phase = .served .tmnt ∨
      (a.g.client d).phase = .served (.op role) ∧ Somebody owes a d := by
    intro d
    by_cases hd : (a.g.client d).phase = .gone
    · exact .inl hd
    · obtain ⟨j, hj, hcares⟩ := h.covered (fun j hj => (hall j hj).imp fun _ hc => hc.1) hd
      obtain ⟨e, he, hcase⟩ := hall j hj
      obtain rfl := Option.some.inj (hcares.symm.trans he)
      rcases hcase with hp | ⟨hp, ho⟩
      · exact .inr (.inl hp)
      · exact .inr (.inr ⟨hp, j, hj, ho⟩)
  have hlt : a.g.changes role < a.g.changes role.other := by
    refine h.books.changes_lt h.inv hn (fun d hnone => ?_) (fun d => ?_)
      ⟨c, hbehind c hc ⟨i, hi, howes⟩⟩
    · have hlate : ¬ (a.g.client d).phase.Early := by
        rcases hphase d with hp | hp | ⟨hp, -⟩ <;> rw [hp] <;> exact not_false
      obtain ⟨id, hid, -⟩ := (h.inv.stands d).welcomed hlate
      cases hnone.symm.trans hid
    · have hbook := h.books.client d
      rcases hphase d with hp | hp | ⟨hp, hsome⟩
      · rw [BookOf, hp] at hbook
        exact .inl hbook.2
      · rw [BookOf, hp] at hbook
        exact .inl hbook.2.2
      · exact .inr (hbehind d hp hsome)
  exact absurd (h.safe.changes_le hlimit hplaces) (Nat.not_le.mpr hlt)

/-! ## When nobody is ready -/

section NotReady

variable {u : GreenPc n} {role : Role}

/-- The handler that sleeps, and the request that it has, which has not changed the buffer. -/
theorem serving (h : Staffed S k a) (hi : Live a i) {sl : ℕ}
    (hf : a.frame i = .user (.got c (.op role)) ∨ a.frame i = .user (.serve .slept role c sl)) :
    owes (a.frame i) = some c ∧ (a.g.client c).phase = .served (.op role) := by
  have hfit := h.inv.fits i
  rw [desk_job hi] at hfit
  rcases hf with hf | hf <;> rw [hf] at hfit ⊢
  · exact ⟨rfl, hfit.2.1⟩
  · exact ⟨rfl, hfit.2.2⟩

/-- With nobody ready, the threads that do not run wait in a list. -/
theorem waiting (h : Staffed S k a) (hready : a.sched.ready = []) (hj : Live a i)
    (hrun : a.sched.running ≠ some i) : ∃ p, a.sched.place i = .waiting p := by
  rcases hp : a.sched.place i with _ | _ | _ | _ | p
  · exact absurd hp hj.2
  · exact absurd (h.ok.parked i hp) hj.1
  · exact absurd (a.sched.running_iff.mpr hp) hrun
  · have hmem := a.sched.ready_iff.mpr hp
    rw [hready] at hmem
    cases hmem
  · exact ⟨p, rfl⟩

/-- If nobody waits in the list of the other role, the threads that do not run have requests of this
role. -/
theorem sleeper (h : Staffed S k a) (hready : a.sched.ready = [])
    (hother : ∀ p, a.g.list role.other = some p → a.sched.waiting p = []) (hi : Live a i)
    (hrun : a.sched.running ≠ some i) :
    ∃ c, owes (a.frame i) = some c ∧ (a.g.client c).phase = .served (.op role) := by
  obtain ⟨p, hp⟩ := h.waiting hready hi hrun
  obtain ⟨role', c, sl, hlist, hf⟩ := h.queues.waiting i p hp
  rcases role.eq_or_eq_other role' with rfl | rfl
  · exact ⟨c, h.serving hi (.inr hf)⟩
  · have hmem := a.sched.waiting_iff.mpr hp
    rw [hother p hlist] at hmem
    cases hmem

/-- **A handler that sleeps leaves a thread ready.** Otherwise all threads would wait for places of
its role. -/
theorem ready_of_sleep {half sl : ℕ} {v : View} {g₁ : Shared n} (h : Staffed S k a)
    (hn : n = 2 * half) (hlimit : 1 ≤ S.limit) (hi : a.sched.running = some i) (h0 : i ≠ 0)
    (hf : a.frame i = .user u) (hE : Enters v a.g u role c sl g₁)
    (hb : a.g.buf.blocked role = true) : a.sched.ready ≠ [] := by
  intro hready
  have hlive := live_of_running hi h0
  have hplaces := Buffer.places_of_blocked hb
  have hfree : a.g.buf.places role.other ≠ 0 := by
    have hsum := a.g.buf.places_add role
    have hsize := h.safe.limit
    omega
  have hat : a.frame i = .user (.got c (.op role)) ∨
      a.frame i = .user (.serve .slept role c sl) := by
    rcases hE.cases with rfl | rfl
    · exact .inl hf
    · exact .inr hf
  obtain ⟨howes, hphase⟩ := h.serving hlive hat
  refine h.starved hn (Int.one_pos.le.trans hlimit) hplaces (fun j hj => ?_) hlive howes hphase
  by_cases hrun : a.sched.running = some j
  · obtain rfl := Option.some.inj (hi.symm.trans hrun)
    exact ⟨c, cares_of_owes howes, .inr ⟨hphase, howes⟩⟩
  · obtain ⟨d, hd, hp⟩ := h.sleeper hready (fun p => h.queues.other_nil hi hf hE hfree) hj hrun
    exact ⟨d, cares_of_owes hd, .inr ⟨hp, hd⟩⟩

/-- **A thread that exits with nobody ready is the last one.** Others would all wait, and nobody
could wake them. -/
theorem last_of_exit {half : ℕ} (h : Staffed S k a) (hn : n = 2 * half) (hlimit : 1 ≤ S.limit)
    (hi : a.sched.running = some i) (h0 : i ≠ 0) (hf : a.frame i = .user (.got c .tmnt))
    (hready : a.sched.ready = []) {j : ℕ} (hj : Live a j) : j = i := by
  by_contra hji
  have hrun : ∀ {j}, j ≠ i → a.sched.running ≠ some j := fun hne he =>
    hne (Option.some.inj (he.symm.trans hi))
  have hlive := live_of_running hi h0
  have hnot : ∀ r, ¬ Woken a r := by
    intro r hw
    obtain ⟨d, sl, he⟩ := Queues.eq_of_woken hi hf hw
    cases he
  obtain ⟨p, hp⟩ := h.waiting hready hj (hrun hji)
  obtain ⟨role, d, sl, hlist, hfj⟩ := h.queues.waiting j p hp
  have hplaces : a.g.buf.places role = 0 := by
    refine (h.queues.asleep role p hlist fun hnil => ?_).resolve_right (hnot role)
    have hmem := a.sched.waiting_iff.mpr hp
    rw [hnil] at hmem
    cases hmem
  have hother : ∀ q, a.g.list role.other = some q → a.sched.waiting q = [] := by
    intro q hq
    by_contra hne
    have hzero := (h.queues.asleep _ q hq hne).resolve_right (hnot _)
    have hsum := a.g.buf.places_add role
    have hsize := h.safe.limit
    omega
  obtain ⟨howes, hphase⟩ := h.serving hj (.inr hfj)
  refine h.starved hn (Int.one_pos.le.trans hlimit) hplaces (fun k hk => ?_) hj howes hphase
  by_cases hki : k = i
  · have hfit := h.inv.fits i
    rw [desk_job hlive, hf] at hfit
    rw [hki, hf]
    exact ⟨c, rfl, .inl hfit.2.1⟩
  · obtain ⟨e, he, hpe⟩ := h.sleeper hready hother hk (hrun hki)
    exact ⟨e, cares_of_owes he, .inr ⟨hpe, he⟩⟩

end NotReady

/-- **A thread at `seL4_Recv` has somebody to wait for**: a client that has not left, and whose
request, if it has made one, no thread has received. -/
theorem somebody_free (h : Staffed S k a) (hi : a.sched.running = some i) (h0 : i ≠ 0)
    (hf : a.frame i = .user .recv) :
    ∃ c, (a.g.client c).phase ≠ .gone ∧ ∀ r, (a.g.client c).phase ≠ .served r := by
  by_contra hno
  have hphase : ∀ c, (a.g.client c).phase = .gone ∨ ∃ r, (a.g.client c).phase = .served r := by
    intro c
    by_contra hc
    rw [not_or, not_exists] at hc
    exact hno ⟨c, hc⟩
  -- nobody is between `seL4_Recv` and `vka_cnode_saveCaller`, so the barrier is open
  have hcold : ∀ j, ¬ ((desk a).job j).Hot := by
    intro j hhot
    obtain ⟨hj, hjob⟩ := frame_of_hot h.undisturbed h.inv hhot
    obtain rfl := Option.some.inj (hi.symm.trans hj)
    rw [← hjob, hf] at hhot
    exact hhot
  have hopen : (desk a).Opened := by
    refine h.inv.opened (fun c => ?_) (fun j c hj => ?_) fun j c id hj => ?_
    · change (a.g.client c).phase ≠ .fresh ∧ (a.g.client c).phase ≠ .asked .init
      rcases hphase c with hp | ⟨r, hp⟩ <;> rw [hp] <;> exact ⟨nofun, nofun⟩
    · exact hcold j (by rw [hj]; trivial)
    · exact hcold j (by rw [hj]; trivial)
  obtain ⟨c, hc, hnobody⟩ := h.uncovered (live_of_running hi h0) (by rw [hf]; rfl)
  obtain ⟨r, hr⟩ := (hphase c).resolve_left hc
  have hlate := hopen c
  change ¬ (a.g.client c).phase.Early at hlate
  have hbook := h.books.client c
  rw [BookOf, hr] at hbook
  rw [hr] at hlate
  cases r with
  | init => exact hlate trivial
  | op role => exact hnobody hbook.2.2.1
  | tmnt => exact hnobody hbook.1
  | immd => exact hbook

end Staffed

/-! ## The machine -/

/-- **The server is not stuck**, in a state of the machine: each of the three ways in which it could
be is excluded. -/
structure Unstuck (S : GreenServer n) (m : Mach (GreenPc n) (Shared n)) : Prop where
  /-- a handler that calls `thread_sleep` leaves a thread ready -/
  sleep : ∀ l p, m.Calls S.program l (.sleep p) → m.st.readyNum ≠ 0
  /-- a thread that calls `thread_exit` with an empty ready queue leaves nobody asleep, -/
  exit : ∀ l, m.Calls S.program l .exit → m.st.readyNum = 0 →
    ∀ x p, m.g.prim x = some p → m.st.waitingIds p = []
  /-- because all other server threads have exited -/
  last : ∀ l, m.Calls S.program l .exit → m.st.readyNum = 0 →
    ∀ i, i ≠ 0 → i ≠ m.st.coCurrentId → m.created i = true → m.exited i = true
  /-- when `seL4_Recv` blocks, some client has not terminated and has no unanswered request -/
  recv : m.cpu = .user .recv → (∀ c r, (m.g.client c).phase ≠ .asked r) →
    ∃ c, (m.g.client c).phase ≠ .gone ∧ ¬ (m.g.client c).Waits

variable {m : Mach (GreenPc n) (Shared n)}

/-- A call of the machine that thread 0 does not make while it sets up is one of a server thread. -/
theorem does_of_calls (hset : SetUp a) (h : Sim S.program False m a) {cl : Call (GreenPc n)}
    (hc : m.Calls S.program l cl) (hmain : ∀ {u ret g'}, ¬ Sets S a.g u cl ret g') :
    ∃ i u w g', a.sched.running = some i ∧ i ≠ 0 ∧ a.frame i = .user u ∧
      Does S (a.view i) a.g u cl w g' := by
  obtain ⟨i, hi⟩ := h.running_of_calls hc
  obtain ⟨act, al, u, ret, g', rfl, hcpu, hn⟩ := hc
  have hf : a.frame i = .user u := (h.cpu i hi).symm.trans hcpu
  rw [h.view hi, h.g] at hn
  rcases hset.shape.zero with ⟨w, hrun, hw, hin⟩ | ⟨hpark, -⟩
  · obtain rfl := Option.some.inj (hi.symm.trans hrun)
    obtain rfl := Frame.user.inj (hf.symm.trans hw)
    exact absurd (next_sets hin hn) hmain
  · have h0 : i ≠ 0 := by
      rintro rfl
      cases (place_running hi).symm.trans hpark
    have hloop := hset.shape.loop i h0 (by rw [place_running hi]; nofun)
    rw [hf] at hloop
    cases hloop with
    | user hu =>
      obtain ⟨w, -, hd⟩ := next_does hu hn
      exact ⟨i, u, w, g', hi, h0, hf, hd⟩

/-- The call of `thread_exit` is that of a thread that has received a `TMNT`. -/
theorem exit_of_calls (hset : SetUp a) (h : Sim S.program False m a)
    (hc : m.Calls S.program l .exit) :
    ∃ i c, a.sched.running = some i ∧ i ≠ 0 ∧ a.frame i = .user (.got c .tmnt) := by
  obtain ⟨i, u, w, g', hi, h0, hf, hd⟩ := does_of_calls hset h hc (by
    intro u ret g' hs
    cases hs)
  cases hd with
  | @tmnt c => exact ⟨i, c, hi, h0, hf⟩

theorem next_recv (S : GreenServer n) (c : Fin n) : ∃ e v g, S.next e v .recv g ≠ none := by
  refine ⟨some c, ⟨0, 0, fun _ => none⟩, (Shared.initialClientPool n 0).setClient c
    ((Shared.initialClientPool n 0).client c |>.ask .init), ?_⟩
  simp [next, Shared.setClient, Client.ask]

end GreenServer

/-- **The green server never gets stuck.** With an even number of clients that run
`client_program`, as many server threads, and room for at least one item, in every state that is
reached after the threads have been created: no handler goes to sleep when nobody is ready, the
thread that exits when nobody is ready is the last one, and a thread blocks in `seL4_Recv` only
while some client can still make a call. -/
theorem never_stuck {n k : ℕ} {limit : ℤ} (hn : Even n) (htwo : 2 ≤ n) (hlimit : 1 ≤ limit)
    (m : Mach (GreenPc n) (Shared n))
    (hm : Reach (GreenServer.newer n k limit).program.runs m)
    (hall : ∀ i, 0 < i → i ≤ n → m.created i = true) :
    GreenServer.Unstuck (GreenServer.newer n k limit) m := by
  obtain ⟨a, ha, h⟩ := GreenServer.reach hm
  obtain ⟨half, hhalf⟩ := hn
  have heven : n = 2 * half := by omega
  have hstaff : GreenServer.Staffed (GreenServer.newer n k limit) k a :=
    .of_reach rfl rfl hlimit rfl ha (h.created ▸ hall)
  have hlast : ∀ l, m.Calls (GreenServer.newer n k limit).program l .exit → m.st.readyNum = 0 →
      ∃ i, a.sched.running = some i ∧ ∀ j, Live a j → j = i := by
    intro l hc hready
    obtain ⟨i, c, hi, h0, hf⟩ := GreenServer.exit_of_calls hstaff.setUp h hc
    exact ⟨i, hi, fun j hj =>
      hstaff.last_of_exit heven hlimit hi h0 hf (h.repr.readyNum_eq_zero.mp hready) hj⟩
  refine ⟨fun l p hc hready => ?_, fun l hc hready x p hp => ?_, fun l hc hready j h0 hj hcr => ?_,
    fun hcpu hasked => ?_⟩
  · obtain ⟨i, u, w, g', hi, h0, hf, hd⟩ := GreenServer.does_of_calls hstaff.setUp h hc (by
      intro u ret g' hs
      cases hs)
    have hempty := h.repr.readyNum_eq_zero.mp hready
    have hfree := GreenServer.freeFrame_of_reach rfl ha i (live_of_running hi h0)
    rw [hf] at hfree
    cases hd with
    | sleepReleased => cases hfree
    | sleep _ hT hb hp =>
      cases hT with
      | here => cases hfree
      | free _ hE => exact hstaff.ready_of_sleep heven hlimit hi h0 hf hE hb hempty
  · obtain ⟨i, hi, hall⟩ := hlast l hc hready
    rw [h.g] at hp
    have hkind := GreenServer.SetUp.kind_of_prim ha hp
    rw [h.repr.waitingIds ((ha.ok.prims p).mpr (by rw [hkind]; nofun))]
    refine List.eq_nil_iff_forall_not_mem.mpr fun j hj => ?_
    have hplace := Sched.place_waiting hj
    obtain ⟨_, _, _, -, hf⟩ := hstaff.queues.waiting j p hplace
    have h0 : j ≠ 0 := by
      rintro rfl
      obtain ⟨w, hw, hat⟩ := hstaff.setUp.main
      obtain rfl := Frame.user.inj (hw.symm.trans hf)
      exact hat
    obtain rfl := hall j ⟨h0, by rw [hplace]; nofun⟩
    cases (Sched.place_running hi).symm.trans hplace
  · obtain ⟨i, hi, hall⟩ := hlast l hc hready
    rw [h.coCurrentId hi] at hj
    rw [h.created] at hcr
    rw [h.exited]
    by_contra hex
    exact hj (hall j ⟨h0, (ha.ok.placed j).mpr ⟨hcr, by simpa using hex⟩⟩)
  · obtain ⟨i, hi, hf⟩ := GreenServer.running_of_frame h hcpu
      (GreenServer.next_recv _ ⟨0, by omega⟩)
    have hlive := GreenServer.live_of_frame hstaff.setUp hi hf trivial
    obtain ⟨c, hgone, hserved⟩ := hstaff.somebody_free hi hlive.1 hf
    rw [h.g] at hasked ⊢
    refine ⟨c, hgone, ?_⟩
    rintro ⟨r, hr | hr⟩
    · exact hasked c r hr
    · exact hserved r hr

/-- A consumer is about to sleep, with the other thread ready. -/
theorem never_stuck_consumer :
    ∃ m, Reach (GreenServer.newer 2 1 1).program.runs m ∧
      m.cpu = .user (.got 0 (.op .consumer)) ∧ m.g.buf.level = 0 ∧
      GreenServer.Unstuck (GreenServer.newer 2 1 1) m := by
  obtain ⟨m, hm, hcpu, hlevel, h1, h2⟩ := Mach.exists_of_reaches
    (P := (GreenServer.newer 2 1 1).program) (fun _ _ => True) (fun _ _ _ _ h => h)
    (.init GreenServer.boot_init)
    (GreenServer.startup 2 ++ GreenServer.initCall 0 5 ++ GreenServer.initCall 1 6 ++
      GreenServer.asks 0 (.op .consumer))
    (fun m => m.cpu = .user (.got 0 (.op .consumer)) ∧ m.g.buf.level = 0 ∧
      m.created 1 = true ∧ m.created 2 = true) (by decide +kernel)
  refine ⟨m, hm, hcpu, hlevel, never_stuck ⟨1, rfl⟩ le_rfl le_rfl m hm fun i hpos hle => ?_⟩
  obtain rfl | rfl : i = 1 ∨ i = 2 := by omega
  · exact h1
  · exact h2

end GreenLib
