import GreenLib.GreenContract
import GreenLib.GreenLive

/-!
# The green server comes to its end

That the server of the newer `main.c` does not get stuck (`GreenLive`) leaves open whether it ever
finishes: handlers could wake each other and find the buffer full or empty again, for ever. They do
not. A handler that has been woken finds the place it was woken for (`Settled.woken`), so each
request costs at most five steps: the call of the client, `seL4_Recv`, at most one `thread_sleep`,
the change of the buffer and the answer. `rank` counts the steps that are still to come.

As long as a server thread runs, it or a client can go on (`canStep_of_running`). So each run comes
to its end, whatever the order of the steps, and at the end all clients have made all their calls,
all server threads have exited and the buffer is empty (`server_completes`).
-/

namespace GreenLib

open Finset

/-- How many steps the calls of a client of `client_program` can still take, without those that a
thread has begun. -/
def Client.rank (k : ℕ) (x : Client) : ℕ :=
  match x.phase with
  | .fresh => 5 * k + 10
  | .asked .init => 5 * k + 9
  | .served .init => 5 * k + 5
  | .idle | .served (.op _) => 5 * (k - x.sent) + 5
  | .asked (.op _) => 5 * (k - x.sent) + 9
  | .asked .tmnt => 4
  | _ => 0

/-- A step of a thread or of the environment. A change of a freed record is none, and could go on
for ever. -/
def Label.acts {A E : Type} : Label A E → Bool
  | .scribble _ _ => false
  | _ => true

namespace GreenServer

open Sched

variable {n k : ℕ} {limit : ℤ} {S : GreenServer n} {a a' : AMach (GreenPc n) (Shared n)} {i : ℕ}
  {c : Fin n} {l : Label (Option (Fin n)) (Fin n × Request)}

/-! ## Woken handlers -/

/-- **After the set-up**, when thread 0 has handed over: a handler that has been woken has a place,
and thread 0 gets control back only when the server threads have exited. -/
structure Settled (a : AMach (GreenPc n) (Shared n)) : Prop where
  woken : ∀ role, Woken a role → 0 < a.g.buf.places role
  alone : a.sched.running = none → ∀ i, ¬ Live a i

/-- Thread 0 does not come back while others run: it is parked, and only the end of the last thread
brings it back. -/
theorem running_ne_zero {r : Req Addr} (hset : SetUp a) (hi : a.sched.running = some i)
    (h0 : i ≠ 0) (hs : Step a.sched i r a'.sched) : a'.sched.running ≠ some 0 := by
  intro hzero
  rcases hset.shape.zero with ⟨-, hrun, -⟩ | ⟨hpark, -⟩
  · exact h0 (Option.some.inj (hi.symm.trans hrun))
  · rcases hs.running_from hi hzero h0.symm with hp | ⟨p, -, hp⟩ <;> cases hpark.symm.trans hp

/-- A thread that runs anew and has slept was woken, by a call of the other role. -/
theorem woken_from {w : GreenPc n} {r : Req Addr} {role : Role} (hq : Queues a)
    (hi : a.sched.running = some i) (hs : Step a.sched i r a'.sched)
    (hframe : a'.frame = Function.update a.frame i (.user w)) (hw : Woken a' role)
    (hnot : a'.sched.running = some i → ∀ c sl, w ≠ .serve .slept role c sl) :
    ∃ p, (r = .wakeup p ∨ r = .wakeupWait p) ∧ a.g.list role = some p := by
  obtain ⟨j, c, sl, h0, hj, hf⟩ := hw
  have hji : j ≠ i := by
    rintro rfl
    rw [hframe, Function.update_self] at hf
    exact hnot hj c sl (Frame.user.inj hf)
  rw [hframe, Function.update_of_ne hji] at hf
  rcases hs.running_from hi hj hji with hp | ⟨p, -, hp⟩
  · rcases hq.ready j h0 hp with he | ⟨_, _, _, he⟩ <;> cases hf.symm.trans he
  · obtain ⟨role', _, _, hlist, hf'⟩ := hq.waiting j p hp
    obtain rfl := (GreenPc.serve.inj (Frame.user.inj (hf'.symm.trans hf))).2.1
    exact ⟨p, hs.woken hp hj, hlist⟩

namespace Settled

/-- A server thread acts. If it goes to sleep, somebody else is ready and runs, who has not
slept. -/
theorem act {u w : GreenPc n} {r : Req Addr} {g : Shared n} {half : ℕ}
    (hstaff : Staffed S k a) (hn : n = 2 * half) (hlimit : 1 ≤ S.limit)
    (hi : a.sched.running = some i) (h0 : i ≠ 0) (hf : a.frame i = .user u)
    (hd : Free (a.view i) a.g u w g r) (hs : Step a.sched i r a'.sched)
    (hframe : a'.frame = Function.update a.frame i (.user w)) (hg : a'.g = g) : Settled a' := by
  have hassigned := (hstaff.setUp.assigned (by rw [hi]; simpa using h0)).2
  refine ⟨fun role' hwoken => ?_, fun hnone => ?_⟩
  · cases hd with
    | recv | init | immd | register | reply =>
      obtain ⟨p, he | he, -⟩ := woken_from hstaff.queues hi hs hframe hwoken nofun <;> cases he
    | @change _ role c sl p g₁ hE hb hp =>
      obtain ⟨q, he, hq⟩ := woken_from hstaff.queues hi hs hframe hwoken nofun
      obtain rfl : p = q := by rcases he with he | he <;> cases he; rfl
      obtain rfl := hassigned.list_inj hq hp
      have hrange := hstaff.safe.range.places_nonneg role.other
      rw [hg]
      change 0 < (g₁.buf.change role).places role.other
      rw [hE.prim.2, Buffer.places_change_other]
      omega
    | @sleep _ role c sl p g₁ hE hb hp =>
      -- somebody is ready and runs now
      obtain ⟨j, tl, hr⟩ := List.exists_cons_of_ne_nil
        (hstaff.ready_of_sleep hn hlimit hi h0 hf hE hb)
      have hj := (hs.sleep_cons hr).running
      have hji : j ≠ i := by
        rintro rfl
        cases (place_running hi).symm.trans (place_ready (hr ▸ List.mem_cons_self))
      obtain ⟨q, he | he, -⟩ := woken_from hstaff.queues hi hs hframe hwoken
        (fun hrun => absurd (Option.some.inj (hj.symm.trans hrun)) hji) <;> cases he
  · refine absurd hnone (hs.running_ne_none hi ?_ ?_) <;> rintro rfl <;> cases hd

/-- A server thread exits. If nobody is ready, it was the last one. -/
theorem exit {half : ℕ} (hstaff : Staffed S k a) (hn : n = 2 * half) (hlimit : 1 ≤ S.limit)
    (hi : a.sched.running = some i) (h0 : i ≠ 0) (hf : a.frame i = .user (.got c .tmnt))
    (hs : Step a.sched i .exit a'.sched) (hframe : a'.frame = a.frame) : Settled a' := by
  have hleft : ¬ Live a' i := fun h => ((live_iff_exit hi hs i).mp h).2 rfl
  refine ⟨fun role hwoken => ?_, fun hnone j hj => ?_⟩
  · have hsame : a'.frame = Function.update a.frame i (.user (.got c .tmnt)) := by
      rw [hframe, ← hf, Function.update_eq_self]
    obtain ⟨p, he | he, -⟩ := woken_from hstaff.queues hi hs hsame hwoken nofun <;> cases he
  · -- nobody was ready, so the thread was the last one
    have hlive : Live a j := ⟨hj.1, hs.placed hi hj.2⟩
    obtain rfl := hstaff.last_of_exit hn hlimit hi h0 hf (hs.exit_none hnone) hlive
    exact hleft hj

theorem next {half : ℕ} (h : Settled a) (hstaff : Staffed S k a) (hn : n = 2 * half)
    (hlimit : 1 ≤ S.limit) (hrun : a.sched.running ≠ some 0) (hs : FreeStep S a a') :
    Settled a' := by
  cases hs with
  | main hi => exact absurd hi hrun
  | act hi h0 hf hd hstep hframe hg => exact act hstaff hn hlimit hi h0 hf hd hstep hframe hg
  | exit hi h0 hf hstep hframe => exact exit hstaff hn hlimit hi h0 hf hstep hframe
  | ask hc hsched hframe hg =>
    refine ⟨fun role hwoken => ?_, fun hnone j hj => ?_⟩
    · rw [hg]
      rw [Woken, hsched, hframe] at hwoken
      exact h.woken role hwoken
    · rw [Live, hsched] at hj
      exact h.alone (hsched ▸ hnone) j hj

/-- A server thread creates nobody: whoever is created after its step was created before. -/
theorem created_of_next (hrun : a.sched.running ≠ some 0) (hok : a.Ok)
    (hs : AStep S.program a l a') (hfs : FreeStep S a a') {j : ℕ} (hj : a'.created j = true) :
    a.created j = true := by
  rcases hs.created_cases hj with h | hp
  · exact h
  · refine ((hok.placed j).mp ?_).1
    cases hfs with
    | main hi => exact absurd hi hrun
    | act hi _ _ _ hstep => exact hstep.placed hi hp
    | exit hi _ _ hstep => exact hstep.placed hi hp
    | ask _ hsched => rwa [hsched] at hp

/-- Thread 0 goes on or hands over. It does not leave the processor idle. -/
theorem running_of_main (hset : SetUp a) (hi : a.sched.running = some 0)
    (hs : AStep S.program a l a') : a'.sched.running ≠ none := by
  have hzero : ∀ {j}, a.sched.running = some j → j = 0 := fun hj =>
    Option.some.inj (hj.symm.trans hi)
  cases hset.shape.steps hs with
  | lock _ _ _ hq => rw [hq.running, hi]; nofun
  | create _ _ _ _ _ hrun => rw [hrun, hi]; nofun
  | notCreated _ _ _ hq => rw [hq.running, hi]; nofun
  | resume _ _ hstep =>
    cases hstep with
    | resume h0 => exact absurd rfl h0
    | handover _ _ h => rw [h.running]; nofun
    | handback h0 => exact absurd rfl h0
  | act hj h0 => exact absurd (hzero hj) h0
  | exit hj h0 => exact absurd (hzero hj) h0
  | env _ hsched => rw [hsched, hi]; nofun

/-- Thread 0 hands over to a thread of the ready queue, and such a thread has not slept on a
list. -/
theorem handover (hset : SetUp a) (hq : Queues a) (hi : a.sched.running = some 0)
    (hs : AStep S.program a l a') (hfs : FreeStep S a a') (hrun : a'.sched.running ≠ some 0) :
    Settled a' := by
  cases hfs with
  | act hi' h0 => exact absurd (Option.some.inj (hi'.symm.trans hi)) h0
  | exit hi' h0 => exact absurd (Option.some.inj (hi'.symm.trans hi)) h0
  | ask _ hsched => exact absurd (hsched ▸ hi) hrun
  | main _ _ _ hfrom _ hold =>
    refine ⟨fun role hwoken => ?_, fun hnone => ?_⟩
    · have hsome := hwoken
      obtain ⟨j, c, sl, h0, hj, -⟩ := hsome
      have hp := (hfrom j hj).resolve_left h0
      exact absurd hwoken (hq.not_woken hj hp (hold j ⟨h0, by rw [hp]; nofun⟩).2)
    · exact absurd hnone (running_of_main hset hi hs)

theorem of_reach {half : ℕ} (hl : S.locked = false) (hthreads : S.threads = n) (hn : n = 2 * half)
    (hlimit : 1 ≤ S.limit) (hmay : S.may = Client.program k) (ha : Reach S.program.aruns a)
    (hrun : a.sched.running ≠ some 0) (hall : ∀ i, 0 < i → i ≤ S.threads → a.created i = true) :
    Settled a := by
  induction ha with
  | init h₀ => exact absurd h₀.running hrun
  | @step a a' l hr hs ih =>
    have hfs := freeStep hl hr hs
    by_cases hi : a.sched.running = some 0
    · exact handover (.of_reach hr) (.of_reach hl hlimit hr) hi hs hfs hrun
    · have hbefore : ∀ i, 0 < i → i ≤ S.threads → a.created i = true := fun i hpos hle =>
        created_of_next hi hr.ok hs hfs (hall i hpos hle)
      exact (ih hi hbefore).next (.of_reach hl hthreads hlimit hmay hr hbefore) hn hlimit hi hfs

end Settled

/-! ## The steps that are still to come -/

/-- How many steps a thread can still take with the request that it has. -/
def frameRank : Frame (GreenPc n) → ℕ
  | .user (.got _ _) => 3
  | .user (.inited _ _) | .user (.serve .slept _ _ _) => 2
  | .user (.serve .reply _ _ _) => 1
  | _ => 0

/-- **The rank** of a state: what the clients have still to ask for, and what the threads have still
to do for them. -/
def rank (S : GreenServer n) (k : ℕ) (a : AMach (GreenPc n) (Shared n)) : ℕ :=
  total (Client.rank k) a.g.client + ∑ i ∈ workers S a, frameRank (a.frame i)

theorem rank_le (S : GreenServer n) (k : ℕ) (a : AMach (GreenPc n) (Shared n)) :
    rank S k a ≤ n * (5 * k + 10) + S.threads * 3 := by
  have hclient : ∀ x : Client, x.rank k ≤ 5 * k + 10 := by
    intro x
    unfold Client.rank
    split <;> omega
  have hframe : ∀ fr : Frame (GreenPc n), frameRank fr ≤ 3 := by
    intro fr
    unfold frameRank
    split <;> omega
  have hclients : total (Client.rank k) a.g.client ≤ n * (5 * k + 10) := by
    calc total (Client.rank k) a.g.client ≤ ∑ _c : Fin n, (5 * k + 10) :=
          sum_le_sum fun c _ => hclient _
      _ = n * (5 * k + 10) := by rw [sum_const_nat fun _ _ => rfl, card_univ, Fintype.card_fin]
  have hworkers : ∑ i ∈ workers S a, frameRank (a.frame i) ≤ #(workers S a) * 3 := by
    calc ∑ i ∈ workers S a, frameRank (a.frame i) ≤ ∑ _i ∈ workers S a, 3 :=
          sum_le_sum fun i _ => hframe _
      _ = #(workers S a) * 3 := sum_const_nat fun _ _ => rfl
  have hcard : #(workers S a) ≤ S.threads := by
    refine (card_filter_le _ _).trans ?_
    simp
  rw [rank]
  omega

/-- A thread goes from `u` to `w`, and the threads are the same: the sum changes by what this thread
does. -/
theorem sum_frameRank {u w : GreenPc n} (hi : i ∈ workers S a) (hw : workers S a' = workers S a)
    (hf : a.frame i = .user u) (hframe : a'.frame = Function.update a.frame i (.user w)) :
    ∑ j ∈ workers S a', frameRank (a'.frame j) + frameRank (.user u) =
      ∑ j ∈ workers S a, frameRank (a.frame j) + frameRank (.user w) := by
  have hrest : ∑ j ∈ (workers S a).erase i, frameRank (a'.frame j) =
      ∑ j ∈ (workers S a).erase i, frameRank (a.frame j) := by
    refine sum_congr rfl fun j hj => ?_
    rw [hframe, Function.update_of_ne (ne_of_mem_erase hj)]
  have hold := add_sum_erase (workers S a) (fun j => frameRank (a.frame j)) hi
  have hnew := add_sum_erase (workers S a) (fun j => frameRank (a'.frame j)) hi
  have hf' : a'.frame i = .user w := by rw [hframe, Function.update_self]
  rw [hrest] at hnew
  simp only [hf, hf'] at hold hnew
  rw [hw]
  omega

/-- The rank of the clients, when `c` moves, changes by that of `c`. -/
theorem total_rank {x : Client} (hclient : a'.g.client = Function.update a.g.client c x) :
    total (Client.rank k) a'.g.client + (a.g.client c).rank k =
      total (Client.rank k) a.g.client + x.rank k := by
  rw [hclient]
  exact total_update ..

/-- The last `INIT` is answered together with the others, or nobody is. In both cases the rank of
the clients stays the same. -/
theorem register_rank {id : ℕ} (hinv : (desk a).Inv) (hund : Undisturbed a) (hbooks : Books k a)
    (hi : a.sched.running = some i) (h0 : i ≠ 0) (hf : a.frame i = .user (.inited c id))
    (hg : a'.g = (a.g.saveCaller (a.view i).slot).registerClient id (a.view i).slot) :
    total (Client.rank k) a'.g.client = total (Client.rank k) a.g.client := by
  have hi' := live_of_running hi h0
  have hj : (desk a).job i = .inited c id := by rw [desk_job hi', hf]; rfl
  by_cases hnew : n = (desk a).g.clientNew
  · obtain ⟨idOf, -, hopen⟩ := hinv.registerClient_eq hj (hund.alone hi) hnew
    refine sum_congr rfl fun d _ => ?_
    have hphase : (a.g.client d).phase = .served .init :=
      hinv.served_init hj (hinv.given_of_all hnew d)
    have hbook := hbooks.client d
    rw [BookOf, hphase] at hbook
    have hclient : a'.g.client d = (a.g.client d).answer (some (initMessage (idOf d))) := by
      rw [hg]
      exact congrArg (fun g => g.client d) hopen
    have hsent : (a.g.client d).sent = 0 := hbook.1
    have hold : (a.g.client d).rank k = 5 * k + 5 := by rw [Client.rank, hphase]
    rw [hclient, hold]
    change 5 * (k - (a.g.client d).sent) + 5 = 5 * k + 5
    rw [hsent, Nat.sub_zero]
  · have hclosed : (a.g.saveCaller (a.view i).slot).registerClient id (a.view i).slot =
        ((desk a).atBarrier i id).g := if_neg fun hb => hnew (eq_of_beq hb)
    rw [hg, hclosed]
    rfl

theorem rank_receive {x : Client} {r : Request} (hx : x.phase = .asked r) (hr : r ≠ .immd) :
    (x.receive r).rank k + 4 = x.rank k := by
  rw [Client.rank, Client.rank, hx]
  cases r with
  | immd => exact absurd rfl hr
  | _ => rfl

/-- **A thread that goes on** comes nearer to the end. A handler that has slept does not sleep
again, because it was woken for a place. -/
theorem Free.rank_lt {u w : GreenPc n} {r : Req Addr} {g : Shared n} (hstaff : Staffed S k a)
    (hset : Settled a) (hi : a.sched.running = some i) (h0 : i ≠ 0) (hf : a.frame i = .user u)
    (hd : Free (a.view i) a.g u w g r) (hw : workers S a' = workers S a)
    (hframe : a'.frame = Function.update a.frame i (.user w)) (hg : a'.g = g) :
    rank S k a' < rank S k a := by
  have hlive := live_of_running hi h0
  have hsum := sum_frameRank ((hstaff.live i).mpr hlive) hw hf hframe
  have hfit := hstaff.inv.fits i
  rw [desk_job hlive, hf] at hfit
  have hmove : ∀ {d x}, g.client = Function.update a.g.client d x →
      total (Client.rank k) a'.g.client + (a.g.client d).rank k =
        total (Client.rank k) a.g.client + x.rank k := fun he => total_rank (by rw [hg, he])
  rw [rank, rank]
  cases hd with
  | @recv c r hc =>
    have hr : r ≠ .immd := by
      rintro rfl
      have hbook := hstaff.books.client c
      rw [BookOf, hc] at hbook
      exact hbook
    have htotal := hmove (d := c) rfl
    have hrank := rank_receive (k := k) hc hr
    change _ + 0 = _ + 3 at hsum
    omega
  | @init c =>
    have htotal := hmove (d := c) rfl
    have hrank : Client.rank k { a.g.client c with given := some a.g.clientNew } =
        (a.g.client c).rank k := rfl
    change _ + 3 = _ + 2 at hsum
    omega
  | @immd c =>
    have hbook := hstaff.books.client c
    rw [BookOf, show (a.g.client c).phase = .served .immd from hfit.2.1] at hbook
    exact hbook.elim
  | @register c id =>
    have htotal := register_rank hstaff.inv hstaff.undisturbed hstaff.books hi h0 hf hg
    change _ + 2 = _ + 0 at hsum
    omega
  | @change _ role c sl p g₁ hE hb hp =>
    have htotal := hmove (d := c) (x := { a.g.client c with ops := (a.g.client c).ops + 1 })
      (by simp only [Shared.change, Shared.setClient, hE.owes.2.1])
    have hrank : Client.rank k { a.g.client c with ops := (a.g.client c).ops + 1 } =
        (a.g.client c).rank k := rfl
    rcases hE.cases with rfl | rfl
    · change _ + 3 = _ + 1 at hsum
      omega
    · change _ + 2 = _ + 1 at hsum
      omega
  | @sleep _ role c sl p g₁ hE hb hp =>
    have hsame : total (Client.rank k) a'.g.client = total (Client.rank k) a.g.client := by
      rw [hg, hE.owes.2.1]
    rcases hE.cases with rfl | rfl
    · change _ + 3 = _ + 2 at hsum
      omega
    · -- a handler that has been woken does not sleep again
      have hplaces := hset.woken role ⟨i, c, sl, h0, hi, hf⟩
      rw [Buffer.places_of_blocked hb] at hplaces
      exact absurd hplaces (lt_irrefl 0)
  | @reply role c sl =>
    obtain ⟨hslot, hcap, hphase⟩ := hfit
    have hcap' : a.g.cap (a.view i).slot = some c := by
      change a.g.cap (a.slot i) = some c
      rw [show a.slot i = sl from hslot]
      exact hcap
    have htotal := hmove (d := c) (x := (a.g.client c).answer none) (by
      rw [Shared.send_of_cap hcap']
      rfl)
    have hrank : ((a.g.client c).answer none).rank k = (a.g.client c).rank k := by
      rw [Client.rank, Client.rank, show (a.g.client c).phase = .served (.op role) from hphase]
      rfl
    change _ + 1 = _ + 0 at hsum
    omega

/-- A client that makes a call comes nearer to its end, because one call less is to come. -/
theorem rank_ask {x : Client} {r : Request} (hc : x.phase = .fresh ∧ r = .init ∨
    x.phase = .idle ∧ r ≠ .init ∧ x.program k r = true) : (x.ask r).rank k < x.rank k := by
  rcases hc with ⟨hx, rfl⟩ | ⟨hx, hr, hmay⟩ <;> rw [Client.rank, Client.rank, hx]
  · exact Nat.lt_succ_self _
  · cases r with
    | init => exact absurd rfl hr
    | op role =>
      have hlt : x.sent < k := by
        simp only [Client.program, Bool.and_eq_true, decide_eq_true_eq] at hmay
        exact hmay.1
      change 5 * (k - (x.sent + 1)) + 9 < 5 * (k - x.sent) + 5
      omega
    | tmnt => change 4 < 5 * (k - x.sent) + 5; omega
    | immd => cases hmay

/-- **Every step** after the set-up comes nearer to the end, also the calls of the clients and the
exits. -/
theorem rank_lt (hstaff : Staffed S k a) (hstaff' : Staffed S k a') (hset : Settled a)
    (hmay : S.may = Client.program k) (hrun : a.sched.running ≠ some 0) (hs : FreeStep S a a') :
    rank S k a' < rank S k a := by
  have hworkers : (∀ j, Live a' j ↔ Live a j) → workers S a' = workers S a := by
    intro hlive
    ext j
    rw [hstaff'.live, hstaff.live, hlive]
  cases hs with
  | main hi => exact absurd hi hrun
  | @act i u w r g hi h0 hf hd hstep hframe hg =>
    refine hd.rank_lt hstaff hset hi h0 hf (hworkers fun j => ?_) hframe hg
    have hr : r ≠ .exit := by
      rintro rfl
      cases hd
    exact live_iff_act hi hstep hr j
  | @exit i c hi h0 hf hstep hframe hg =>
    have hlive := live_of_running hi h0
    have hmem := (hstaff.live i).mpr hlive
    have hleft : workers S a' = (workers S a).erase i := by
      ext j
      rw [hstaff'.live, mem_erase, hstaff.live, live_iff_exit hi hstep]
      tauto
    have hsum := add_sum_erase (workers S a) (fun j => frameRank (a.frame j)) hmem
    have hfit := hstaff.inv.fits i
    rw [desk_job hlive, hf] at hfit
    have htotal := total_rank (k := k) (a := a) (c := c)
      (show a'.g.client = Function.update a.g.client c { a.g.client c with phase := .gone } by
        rw [hg]; rfl)
    have hrank : (a.g.client c).rank k = 0 := by
      rw [Client.rank, show (a.g.client c).phase = .served .tmnt from hfit.2.1]
    have hgone : Client.rank k { a.g.client c with phase := .gone } = 0 := rfl
    rw [hf] at hsum
    change 3 + _ = _ at hsum
    rw [rank, rank, hleft, hframe]
    omega
  | @ask c r hc hsched hframe hg =>
    have hlive : ∀ j, Live a' j ↔ Live a j := fun j => by rw [Live, Live, hsched]
    have htotal := total_rank (k := k) (a := a) (c := c)
      (show a'.g.client = Function.update a.g.client c ((a.g.client c).ask r) by rw [hg]; rfl)
    have hrank := rank_ask (hmay ▸ hc)
    rw [rank, rank, hworkers hlive, hframe]
    omega

/-! ## Some step is possible -/

section Machine

variable {m m' : Mach (GreenPc n) (Shared n)}

/-- A thread or a client can take a step, for some choice of what the allocators hand out. -/
def CanStep (S : GreenServer n) (m : Mach (GreenPc n) (Shared n)) : Prop :=
  ∃ l m', l.acts = true ∧ m.step S.program l = .ok m'

theorem CanStep.env {r : Request} (hc : (m.g.client c).phase = .fresh ∧ r = .init ∨
    (m.g.client c).phase = .idle ∧ r ≠ .init ∧ S.may (m.g.client c) r = true) : CanStep S m := by
  have henv : S.program.env (c, r) m.g = some (m.g.setClient c ((m.g.client c).ask r)) := if_pos hc
  exact ⟨.env (c, r), { m with g := m.g.setClient c ((m.g.client c).ask r) }, rfl,
    by simp only [Mach.step, henv]⟩

/-- The code has a next call, and there is a free slot for it, so the running thread can make a
step. -/
theorem CanStep.call (hcap : S.threads < maxCapacity) (hm : Reach S.program.runs m)
    {u : GreenPc n} (hcpu : m.cpu = .user u) (hu : u.InLoop)
    (hslot : ∃ sl, m.st.slotUsed sl = false) {e : Option (Fin n)}
    (hn : ∃ x, S.next e m.st.view u m.g = some x) : CanStep S m := by
  obtain ⟨sl, hsl⟩ := hslot
  obtain ⟨x, hx⟩ := hn
  have hal : Alloc.Fresh m.st ⟨none, true, true, none, none, none, some sl⟩ :=
    ⟨by simp, by simp, by simp, sl, rfl, hsl⟩
  obtain ⟨m', hm'⟩ := step_of_next hcap hm hcpu (by rintro rfl; exact hu) hal hx
  exact ⟨.call e _, m', rfl, hm'⟩

/-- A client that has its answer makes its next call: a request of its role, or `TMNT` after the
last one. -/
theorem exists_program {x : Client} (hsent : x.sent ≤ k) :
    ∃ r, r ≠ .init ∧ x.program k r = true := by
  rcases hsent.lt_or_eq with hlt | heq
  · exact ⟨.op (roleOf x.id), by simp, by simp [Client.program, hlt]⟩
  · exact ⟨.tmnt, by simp, by simp [Client.program, heq]⟩

/-- **The running server thread goes on**, or a client does, for which it waits at `seL4_Recv`. -/
theorem canStep_of_running (hstaff : Staffed S k a) (h : Sim S.program False m a)
    (hi : a.sched.running = some i) (h0 : i ≠ 0) (hcap : S.threads < maxCapacity)
    (hm : Reach S.program.runs m) (ha : Reach S.program.aruns a) (hl : S.locked = false)
    (hmax : n ≤ clientMax) (hmay : S.may = Client.program k)
    (hslot : ∃ sl, m.st.slotUsed sl = false) : CanStep S m := by
  have hfree := freeFrame_of_reach hl ha i (live_of_running hi h0)
  obtain ⟨u, hf, hu⟩ : ∃ u, a.frame i = .user u ∧ u.InLoop := by
    generalize a.frame i = fr at hfree
    cases hfree <;> exact ⟨_, rfl, trivial⟩
  have hcpu := (h.cpu i hi).trans hf
  by_cases hrecv : u = .recv
  · -- at `seL4_Recv` a request is waiting, or a client makes one
    subst hrecv
    obtain ⟨c, hgone, hserved⟩ := hstaff.somebody_free hi h0 hf
    have hbook := hstaff.books.client c
    rw [← h.g] at hgone hserved
    rw [BookOf, ← h.g] at hbook
    rcases hphase : (m.g.client c).phase with _ | r | r | _ | _
    · exact .env (.inl ⟨hphase, rfl⟩)
    · have hnext : S.next (some c) m.st.view .recv m.g =
          some (.pause, fun _ => .got c r, m.g.receive c r) := by
        simp only [next, hphase]
      exact .call hcap hm hcpu hu hslot ⟨_, hnext⟩
    · exact absurd hphase (hserved r)
    · rw [hphase] at hbook
      obtain ⟨r, hr, hprog⟩ := exists_program hbook.1
      exact .env (.inr ⟨hphase, hr, hmay ▸ hprog⟩)
    · exact absurd hphase hgone
  · have hnext := next_ne_none hstaff.setUp hstaff.safe hi h0 hstaff.inv hmax hf hrecv none
    rw [← h.view hi, ← h.g] at hnext
    exact .call hcap hm hcpu hu hslot hnext

/-! ## The end -/

/-- **All is done**: every client has made its `k` changes and has left, the server threads have
exited, and as many items have been consumed as produced. -/
structure Complete (n k : ℕ) (m : Mach (GreenPc n) (Shared n)) : Prop where
  client : ∀ c, (m.g.client c).phase = .gone ∧ (m.g.client c).sent = k ∧ (m.g.client c).ops = k
  thread : ∀ i, 0 < i → i ≤ n → m.exited i = true
  changes : ∀ role, m.g.changes role = n / 2 * k
  level : m.g.buf.level = 0

/-- **After the set-up**: the machine is in a state of a run in which thread 0 has created all
threads and handed over. -/
structure Running (S : GreenServer n) (k : ℕ) (m : Mach (GreenPc n) (Shared n))
    (a : AMach (GreenPc n) (Shared n)) : Prop where
  reach : Reach S.program.runs m
  areach : Reach S.program.aruns a
  sim : Sim S.program False m a
  handed : a.sched.running ≠ some 0
  created : ∀ i, 0 < i → i ≤ S.threads → a.created i = true

namespace Running

theorem of_reach (hm : Reach S.program.runs m)
    (hall : ∀ i, 0 < i → i ≤ S.threads → m.created i = true)
    (hover : ∀ u, m.cpu = .user u → ¬ u.InMain) : ∃ a, Running S k m a := by
  obtain ⟨a, ha, h⟩ := GreenServer.reach hm
  refine ⟨a, hm, ha, h, fun hrun => ?_, h.created ▸ hall⟩
  rcases (SetUp.of_reach ha).shape.zero with ⟨u, -, hu, hmain⟩ | ⟨hpark, -⟩
  · exact hover u ((h.cpu 0 hrun).trans hu) hmain
  · cases (place_running hrun).symm.trans hpark

section Rules

variable {half : ℕ} (h : Running S k m a) (hl : S.locked = false) (hthreads : S.threads = n)
  (hn : n = 2 * half) (hlimit : 1 ≤ S.limit) (hmay : S.may = Client.program k)
include h hl hthreads hlimit hmay

theorem staffed : Staffed S k a := .of_reach hl hthreads hlimit hmay h.areach h.created

include hn

theorem settled : Settled a :=
  .of_reach hl hthreads hn hlimit hmay h.areach h.handed h.created

/-- Each step of a thread or a client comes nearer to the end. -/
theorem lower (hs : m.step S.program l = .ok m') (hacts : l.acts = true) :
    ∃ a', Running S k m' a' ∧ rank S k a' < rank S k a := by
  have hstaff := h.staffed hl hthreads hlimit hmay
  have hset := h.settled hl hthreads hn hlimit hmay
  have hne : ∀ t junk, l ≠ .scribble t junk := by
    rintro t junk rfl
    cases hacts
  obtain ⟨a', h', hstep⟩ := (handover S).sim_step_of_ne h.areach h.sim
    (resumesReady hstaff.setUp h.sim) hs hne
  have hfree := freeStep hl h.areach hstep
  have hnext : Running S k m' a' := by
    refine ⟨.step h.reach hs, .step h.areach hstep, h', ?_, fun i hpos hle =>
      hstep.created_kept (h.created i hpos hle)⟩
    cases hfree with
    | main hi => exact absurd hi h.handed
    | act hi h0 _ _ hs' => exact running_ne_zero hstaff.setUp hi h0 hs'
    | exit hi h0 _ hs' => exact running_ne_zero hstaff.setUp hi h0 hs'
    | ask _ hsched => exact hsched ▸ h.handed
  exact ⟨a', hnext, rank_lt hstaff (hnext.staffed hl hthreads hlimit hmay) hset hmay h.handed
    hfree⟩

omit hl hthreads hlimit hmay hn in
/-- A freed record that changes is not noticed, so the rank stays the same. -/
theorem scribbled (hs : m.step S.program l = .ok m') (hacts : l.acts = false) :
    Running S k m' a := by
  cases l with
  | scribble t junk =>
    have hstep := hs
    simp only [Mach.step] at hs
    split at hs
    · cases hs
    · rename_i hlive
      obtain rfl := Except.ok.inj hs
      exact ⟨.step h.reach hstep, h.areach, h.sim.scribble (Bool.eq_false_iff.mpr hlive) junk,
        h.handed, h.created⟩
  | _ => cases hacts

/-- **Nobody is left** when no step is possible: no server thread runs, and then no client is there
either. -/
theorem complete (hslot : ∃ sl, m.st.slotUsed sl = false) (hno : ¬ CanStep S m) :
    Complete n k m := by
  have hstaff := h.staffed hl hthreads hlimit hmay
  have hcap : S.threads < maxCapacity := by
    rcases Nat.eq_zero_or_pos S.threads with hzero | hpos
    · rw [hzero]
      decide
    · refine created_lt h.reach ?_
      rw [h.sim.created]
      exact h.created S.threads hpos le_rfl
  -- the table of reply capabilities is longer than that of the threads
  have hmax : n ≤ clientMax := (hthreads ▸ hcap.le).trans (by decide)
  have hnone : a.sched.running = none := by
    rcases hr : a.sched.running with _ | i
    · rfl
    · have h0 : i ≠ 0 := fun he => h.handed (he ▸ hr)
      exact absurd (canStep_of_running hstaff h.sim hr h0 hcap h.reach h.areach hl hmax hmay hslot)
        hno
  have hlive := (h.settled hl hthreads hn hlimit hmay).alone hnone
  have hworkers : workers S a = ∅ :=
    eq_empty_iff_forall_notMem.mpr fun i hi => hlive i ((hstaff.live i).mp hi)
  have hgone : ∀ c, (a.g.client c).phase = .gone := by
    intro c
    have hcard := hstaff.balanced
    rw [hworkers, card_empty, eq_comm, card_eq_zero] at hcard
    by_contra hc
    have hmem : c ∈ present a := mem_filter.mpr ⟨mem_univ c, hc⟩
    rw [hcard] at hmem
    exact notMem_empty c hmem
  have hbook : ∀ c, (a.g.client c).sent = k ∧ (a.g.client c).ops = k := by
    intro c
    have hbook := hstaff.books.client c
    rw [BookOf, hgone c] at hbook
    exact hbook
  have hchanges : ∀ role, a.g.changes role = n / 2 * k := by
    intro role
    have hgiven : ∀ c, (a.g.client c).given ≠ none := by
      intro c hnone
      have hlate : ¬ (a.g.client c).phase.Early := by
        rw [hgone c]
        exact not_false
      obtain ⟨id, hid, -⟩ := (hstaff.inv.stands c).welcomed hlate
      cases hnone.symm.trans hid
    have hquota := total_quota (k := k) hstaff.inv.ids hgiven hn role
    rw [hstaff.books.changes role, show n / 2 = half by omega, ← hquota]
    refine sum_congr rfl fun c _ => ?_
    rw [← (hbook c).2]
    rfl
  refine ⟨fun c => ?_, fun i hpos hle => ?_, fun role => ?_, ?_⟩
  · rw [h.sim.g]
    exact ⟨hgone c, hbook c⟩
  · rw [h.sim.exited]
    by_contra hex
    have hcreated := h.created i hpos (hle.trans_eq hthreads.symm)
    exact hlive i ⟨hpos.ne', (hstaff.ok.placed i).mpr ⟨hcreated, by simpa using hex⟩⟩
  · rw [h.sim.g]
    exact hchanges role
  · rw [h.sim.g, hstaff.safe.balance, hchanges, hchanges, sub_self]

/-- A state in which all is done has no steps left, neither of thread 0 nor of a client. -/
theorem not_canStep (hdone : Complete n k m) : ¬ CanStep S m := by
  rintro ⟨l, m', hacts, hs⟩
  have hstaff := h.staffed hl hthreads hlimit hmay
  obtain ⟨a', -, hlt⟩ := h.lower hl hthreads hn hlimit hmay hs hacts
  have hworkers : workers S a = ∅ := by
    refine eq_empty_iff_forall_notMem.mpr fun i hi => ?_
    have hlive := (hstaff.live i).mp hi
    have hrange := mem_Icc.mp (mem_filter.mp hi).1
    have hexited := hdone.thread i hrange.1 (hrange.2.trans_eq hthreads)
    rw [h.sim.exited] at hexited
    cases hexited.symm.trans ((hstaff.ok.placed i).mp hlive.2).2
  have hclients : total (Client.rank k) a.g.client = 0 := by
    refine sum_eq_zero fun c _ => ?_
    have hgone := (hdone.client c).1
    rw [h.sim.g] at hgone
    rw [Client.rank, hgone]
  have hrank : rank S k a = 0 := by rw [rank, hworkers, hclients, sum_empty, Nat.add_zero]
  omega

end Rules

end Running

end Machine

end GreenServer

/-- **The green server comes to its end.** With an even number of clients that run `client_program`
with `k` rounds, as many server threads, and room for at least one item, from every state after the
set-up: whatever the order of the steps, threads and clients take at most `n * (5 * k + 13)` more
steps, and unless the capability space is exhausted, they stop exactly when all is done. -/
theorem server_completes {n k : ℕ} {limit : ℤ} (hn : Even n) (hlimit : 1 ≤ limit)
    (m : Mach (GreenPc n) (Shared n))
    (hm : Reach (GreenServer.newer n k limit).program.runs m)
    (hall : ∀ i, 0 < i → i ≤ n → m.created i = true)
    (hover : ∀ u, m.cpu = .user u → ¬ u.InMain) :
    ∀ ls m', Path (GreenServer.newer n k limit).program.runs m ls m' →
      ls.countP (fun x => x.2.1.acts) ≤ n * (5 * k + 13) ∧
      ((∃ sl, m'.st.slotUsed sl = false) →
        (GreenServer.Complete n k m' ↔
          ¬ GreenServer.CanStep (GreenServer.newer n k limit) m')) := by
  intro ls m' hp
  obtain ⟨half, hhalf⟩ := hn
  have heven : n = 2 * half := by omega
  obtain ⟨a, h⟩ := GreenServer.Running.of_reach (k := k) hm hall hover
  -- the rank of the states of the run
  obtain ⟨r, ⟨a', h', -⟩, hle⟩ := hp.countP_le Label.acts
    (R := fun r m => ∃ a, GreenServer.Running (GreenServer.newer n k limit) k m a ∧
      GreenServer.rank (GreenServer.newer n k limit) k a = r)
    (by
      rintro _ m l m' ⟨a, h, rfl⟩ hs hacts
      obtain ⟨a', h', hlt⟩ := h.lower rfl rfl heven hlimit rfl hs hacts
      exact ⟨_, hlt, a', h', rfl⟩)
    (by
      rintro _ m l m' ⟨a, h, rfl⟩ hs hacts
      exact ⟨a, h.scribbled hs hacts, rfl⟩)
    ⟨a, h, rfl⟩
  have hrank := GreenServer.rank_le (GreenServer.newer n k limit) k a
  have hbound : n * (5 * k + 10) + n * 3 = n * (5 * k + 13) := by
    rw [← Nat.mul_add]
  refine ⟨?_, fun hslot => ⟨fun hdone => ?_, fun hno => ?_⟩⟩
  · change _ ≤ n * (5 * k + 10) + n * 3 at hrank
    omega
  · exact h'.not_canStep rfl rfl heven hlimit rfl hdone
  · exact h'.complete rfl rfl heven hlimit rfl hslot hno

/-- Two clients that produce and consume one item, from the first `seL4_Recv` on, take at most 36
steps. -/
theorem server_completes_two :
    ∃ m, Reach (GreenServer.newer 2 1 1).program.runs m ∧ m.cpu = .user .recv ∧
      ∀ ls m', Path (GreenServer.newer 2 1 1).program.runs m ls m' →
        ls.countP (fun x => x.2.1.acts) ≤ 2 * (5 * 1 + 13) ∧
        ((∃ sl, m'.st.slotUsed sl = false) →
          (GreenServer.Complete 2 1 m' ↔ ¬ GreenServer.CanStep (GreenServer.newer 2 1 1) m')) := by
  obtain ⟨m, hm, hcpu, h1, h2⟩ := Mach.exists_of_reaches
    (P := (GreenServer.newer 2 1 1).program) (fun _ _ => True) (fun _ _ _ _ h => h)
    (.init GreenServer.boot_init) (GreenServer.startup 2)
    (fun m => m.cpu = .user .recv ∧ m.created 1 = true ∧ m.created 2 = true) (by decide +kernel)
  refine ⟨m, hm, hcpu, server_completes ⟨1, rfl⟩ le_rfl m hm (fun i hpos hle => ?_)
    fun u hu => ?_⟩
  · obtain rfl | rfl : i = 1 ∨ i = 2 := by omega
    · exact h1
    · exact h2
  · obtain rfl := Frame.user.inj (hcpu.symm.trans hu)
    exact not_false

end GreenLib
