import GreenLib.GreenFree
import GreenLib.GreenRouting

/-!
# The books of the green server

The clients of the newer `main.c` all run `client_program`: with an odd id a client makes `k`
`PRODUCER` calls, with an even one `k` `CONSUMER` calls, and then it calls `TMNT`
(`Client.program`).

The books say how far every client is (`Client.Booked`): how many calls it has made, how many of
them have changed the buffer, and whether a thread has its request. A call has changed the buffer
unless it still waits at the endpoint or the thread that has it has not come through its test
(`owes`). Together the clients of a role have changed the buffer as often as the role has
(`Books.changes`).
-/

namespace GreenLib

/-! ## The clients -/

/-- `client_program` produces with an odd id and consumes with an even one, so the role follows from
the id. -/
def roleOf (id : ℕ) : Role := if id % 2 = 1 then .producer else .consumer

namespace Client

/-- `client_program`, with `k` rounds of its loops: which request may be next. After `k` requests of
its role comes `TMNT`. -/
def program (k : ℕ) (x : Client) : Request → Bool
  | .op role => decide (x.sent < k) && decide (role = roleOf x.id)
  | .tmnt => x.sent == k
  | .init | .immd => false

/-- The role that goes with the id that was given to the client, once it has one. -/
def role (x : Client) : Option Role := x.given.map roleOf

/-- What the client has contributed to the changes by a role: all of its own if the role is its
own. -/
def share (role : Role) (x : Client) : ℕ := if x.role = some role then x.ops else 0

theorem share_of_ops {role : Role} {x : Client} (h : x.ops = 0) : x.share role = 0 := by
  rw [share, h, ite_self]

/-- **The book of a client** of `client_program`, by its phase. `owing` says that some thread has
its request and has not yet changed the buffer, `attended` that some thread has its request. -/
def Booked (k : ℕ) (owing attended : Prop) (x : Client) : ClientPhase → Prop
  | .fresh | .asked .init | .served .init => x.sent = 0 ∧ x.ops = 0
  | .asked (.op role) => x.role = some role ∧ x.sent ≤ k ∧ x.ops + 1 = x.sent
  | .served (.op role) => x.role = some role ∧ x.sent ≤ k ∧ attended ∧
    (owing ∧ x.ops + 1 = x.sent ∨ ¬ owing ∧ x.ops = x.sent)
  | .idle => x.sent ≤ k ∧ x.ops = x.sent
  | .served .tmnt => attended ∧ x.sent = k ∧ x.ops = k
  | .asked .tmnt | .gone => x.sent = k ∧ x.ops = k
  | .asked .immd | .served .immd => False

end Client

namespace GreenServer

open Sched

variable {n k : ℕ} {limit : ℤ} {S : GreenServer n} {a a' : AMach (GreenPc n) (Shared n)} {i : ℕ}
  {c d : Fin n}

/-- The server of the newer `main.c`, with `n` threads for `n` clients that make `k` calls each. -/
def newer (n k : ℕ) (limit : ℤ) : GreenServer n := ⟨false, n, limit, Client.program k⟩

/-! ## Who has a request -/

/-- The client whose request the thread at this frame has, from its job. -/
def cares (fr : Frame (GreenPc n)) : Option (Fin n) := (jobOf fr).about

/-- The same, as long as the handler has not come through its test: it owes a change of the
buffer. -/
def owes : Frame (GreenPc n) → Option (Fin n)
  | .user (.got c (.op _)) | .user (.serve .slept _ c _) => some c
  | _ => none

theorem cares_of_owes {fr : Frame (GreenPc n)} (h : owes fr = some c) : cares fr = some c := by
  unfold owes at h
  split at h
  · exact h
  · exact h
  · cases h

/-- Some thread has the client, in the sense of `φ`, which is `cares` or `owes`. -/
def Somebody (φ : Frame (GreenPc n) → Option (Fin n)) (a : AMach (GreenPc n) (Shared n))
    (c : Fin n) : Prop := ∃ i, Live a i ∧ φ (a.frame i) = some c

/-- The book of client `c`, in the state `a`: its numbers and its threads fit its phase. -/
def BookOf (k : ℕ) (a : AMach (GreenPc n) (Shared n)) (c : Fin n) : Prop :=
  (a.g.client c).Booked k (Somebody owes a c) (Somebody cares a c) (a.g.client c).phase

/-- A thread cares for a client whose request has been received, -/
theorem served_of_cares (hinv : (desk a).Inv) (hi : Live a i) (hc : cares (a.frame i) = some c) :
    ∃ r, (a.g.client c).phase = .served r := by
  apply hinv.served_of_about (i := i)
  rw [desk_job hi]
  exact hc

/-- and if it is in between, it is the only one that does. -/
theorem other_of_hot (hinv : (desk a).Inv) (hund : Undisturbed a) (hi : Live a i)
    (hhot : (jobOf (a.frame i)).Hot) (hc : cares (a.frame i) = some c) {j : ℕ} (hji : j ≠ i)
    (hj : Live a j) : cares (a.frame j) ≠ some c := by
  have halone := hund.alone (hund i hi hhot)
  have hfit := hinv.fits i
  rw [cares, ← desk_job hj]
  rw [cares] at hc
  rw [desk_job hi] at hfit
  rcases he : jobOf (a.frame i) with _ | ⟨d, r⟩ | ⟨d, id⟩ | ⟨role, d, sl⟩ <;>
    rw [he] at hc hfit hhot
  · cases hc
  · cases hc
    exact hinv.other_of_hot halone hfit.2.2 j hji
  · cases hc
    exact hinv.other_of_hot halone hfit.2.2.1 j hji
  · exact hhot.elim

/-- **A client is cared for by one thread** at most, since its reply capability is in one place. -/
theorem cares_inj (hinv : (desk a).Inv) (hund : Undisturbed a) {j : ℕ} (hi : Live a i)
    (hj : Live a j) (hci : cares (a.frame i) = some c) (hcj : cares (a.frame j) = some c) :
    i = j := by
  by_contra hne
  by_cases hhoti : (jobOf (a.frame i)).Hot
  · exact other_of_hot hinv hund hi hhoti hci (Ne.symm hne) hj hcj
  by_cases hhotj : (jobOf (a.frame j)).Hot
  · exact other_of_hot hinv hund hj hhotj hcj hne hi hci
  -- neither is in between, so both serve the client
  rw [cares] at hci
  rcases he : jobOf (a.frame i) with _ | ⟨d, r⟩ | ⟨d, id⟩ | ⟨role, d, sl⟩ <;> rw [he] at hci hhoti
  · cases hci
  · exact hhoti trivial
  · exact hhoti trivial
  · cases hci
    rw [cares, ← desk_job hj] at hcj
    rw [← desk_job hj] at hhotj
    exact hinv.other_of_serving ((desk_job hi).trans he) hhotj (Ne.symm hne) hcj

/-- **A step that touches** the thread `i` and the client `c`, and no other thread or client. No
other thread has the request of `c`. -/
structure Touches (a a' : AMach (GreenPc n) (Shared n)) (i : ℕ) (c : Fin n) : Prop where
  live : ∀ j, j ≠ i → (Live a' j ↔ Live a j)
  frame : ∀ j, j ≠ i → a'.frame j = a.frame j
  client : ∀ d, d ≠ c → a'.g.client d = a.g.client d
  before : ∀ d, cares (a.frame i) = some d → d = c
  after : ∀ d, cares (a'.frame i) = some d → d = c
  alone : ∀ j, j ≠ i → Live a j → cares (a.frame j) ≠ some c

namespace Touches

variable {φ : Frame (GreenPc n) → Option (Fin n)}

/-- Who has another client is the same, -/
theorem somebody_other (h : Touches a a' i c) (hφ : ∀ fr d, φ fr = some d → cares fr = some d)
    (hd : d ≠ c) : Somebody φ a' d ↔ Somebody φ a d := by
  constructor
  · rintro ⟨j, hj, he⟩
    have hji : j ≠ i := by
      rintro rfl
      exact hd (h.after d (hφ _ d he))
    exact ⟨j, (h.live j hji).mp hj, h.frame j hji ▸ he⟩
  · rintro ⟨j, hj, he⟩
    have hji : j ≠ i := by
      rintro rfl
      exact hd (h.before d (hφ _ d he))
    exact ⟨j, (h.live j hji).mpr hj, (h.frame j hji).symm ▸ he⟩

/-- and `c` is the thread's or nobody's. -/
theorem somebody_self (h : Touches a a' i c) (hφ : ∀ fr d, φ fr = some d → cares fr = some d) :
    Somebody φ a' c ↔ Live a' i ∧ φ (a'.frame i) = some c := by
  refine ⟨fun ⟨j, hj, he⟩ => ?_, fun ⟨hi, he⟩ => ⟨i, hi, he⟩⟩
  rcases eq_or_ne j i with rfl | hji
  · exact ⟨hj, he⟩
  · rw [h.frame j hji] at he
    exact absurd (hφ _ c he) (h.alone j hji ((h.live j hji).mp hj))

theorem somebody_before (h : Touches a a' i c) (hφ : ∀ fr d, φ fr = some d → cares fr = some d) :
    Somebody φ a c ↔ Live a i ∧ φ (a.frame i) = some c := by
  refine ⟨fun ⟨j, hj, he⟩ => ?_, fun ⟨hi, he⟩ => ⟨i, hi, he⟩⟩
  rcases eq_or_ne j i with rfl | hji
  · exact ⟨hj, he⟩
  · exact absurd (hφ _ c he) (h.alone j hji hj)

/-- The book of another client stays, since neither its numbers nor its threads have changed. -/
theorem bookOf_other (h : Touches a a' i c) (hd : d ≠ c) (hbook : BookOf k a d) :
    BookOf k a' d := by
  rw [BookOf, h.client d hd, h.somebody_other (fun _ _ => cares_of_owes) hd,
    h.somebody_other (fun _ _ he => he) hd]
  exact hbook

end Touches

/-! ## What happens to the clients -/

/-- **What a thread does for client `c`** between two places of its loop: what becomes of the client
and of the numbers of changes. -/
inductive Deal (c : Fin n) (x : Client) (ch : Role → ℕ) :
    GreenPc n → GreenPc n → Client → (Role → ℕ) → Prop where
  | recv {r : Request} (hx : x.phase = .asked r) : Deal c x ch .recv (.got c r) (x.receive r) ch
  | init {id : ℕ} (hx : x.phase = .served .init) :
    Deal c x ch (.got c .init) (.inited c id) { x with given := some id } ch
  | immd (hx : x.phase = .served .immd) : Deal c x ch (.got c .immd) .recv x ch
  /-- the barrier stays closed -/
  | register {id : ℕ} (hx : x.phase = .served .init) : Deal c x ch (.inited c id) .recv x ch
  | change {u : GreenPc n} {role : Role} {sl : ℕ} (hx : x.phase = .served (.op role))
    (hu : owes (.user u) = some c) :
    Deal c x ch u (.serve .reply role c sl) { x with ops := x.ops + 1 }
      (Function.update ch role (ch role + 1))
  | sleep {u : GreenPc n} {role : Role} {sl : ℕ} (hx : x.phase = .served (.op role))
    (hu : owes (.user u) = some c) : Deal c x ch u (.serve .slept role c sl) x ch
  | reply {role : Role} {sl : ℕ} (hx : x.phase = .served (.op role)) :
    Deal c x ch (.serve .reply role c sl) .recv (x.answer none) ch

/-- **What a step does to the clients**: nothing, a deal of one thread with one client, the answers
at the barrier, an exit, or a new request. -/
inductive Dealt (S : GreenServer n) (a a' : AMach (GreenPc n) (Shared n)) : Prop where
  | quiet (hclient : a'.g.client = a.g.client) (hchanges : a'.g.changes = a.g.changes)
    (hold : ∀ j, Live a j → Live a' j ∧ a'.frame j = a.frame j)
    (hnew : ∀ j, Live a' j → ¬ Live a j → a'.frame j = .user .recv)
  | deal {i : ℕ} {c : Fin n} {u w : GreenPc n} {x : Client} {ch : Role → ℕ} (ht : Touches a a' i c)
    (hi : Live a i) (hi' : Live a' i) (hf : a.frame i = .user u) (hf' : a'.frame i = .user w)
    (hd : Deal c (a.g.client c) a.g.changes u w x ch)
    (hclient : a'.g.client = Function.update a.g.client c x) (hchanges : a'.g.changes = ch)
  /-- the barrier opens -/
  | welcome (hinit : ∀ d, (a.g.client d).phase = .served .init)
    (hclient : ∀ d, ∃ m, a'.g.client d = (a.g.client d).answer m)
    (hchanges : a'.g.changes = a.g.changes) (hlive : ∀ j, Live a' j ↔ Live a j)
  | leave {i : ℕ} {c : Fin n} (ht : Touches a a' i c) (hi : Live a i) (hi' : ¬ Live a' i)
    (hx : (a.g.client c).phase = .served .tmnt)
    (hclient : a'.g.client = Function.update a.g.client c { a.g.client c with phase := .gone })
    (hchanges : a'.g.changes = a.g.changes)
  | ask {c : Fin n} {r : Request}
    (hc : (a.g.client c).phase = .fresh ∧ r = .init ∨
      (a.g.client c).phase = .idle ∧ r ≠ .init ∧ S.may (a.g.client c) r = true)
    (hclient : a'.g.client = Function.update a.g.client c ((a.g.client c).ask r))
    (hchanges : a'.g.changes = a.g.changes) (hlive : ∀ j, Live a' j ↔ Live a j)
    (hframe : a'.frame = a.frame)

theorem Enters.owes {v : View} {g g₁ : Shared n} {u : GreenPc n} {role : Role} {sl : ℕ}
    (h : Enters v g u role c sl g₁) :
    owes (.user u) = some c ∧ g₁.client = g.client ∧ g₁.changes = g.changes := by
  cases h <;> exact ⟨rfl, rfl, rfl⟩

section Act

variable {u w : GreenPc n} {r : Req Addr} {g : Shared n}

/-- A thread that acts for a client touches nobody else: either it had the request already, or
nobody had. -/
theorem touches_act (hinv : (desk a).Inv) (hund : Undisturbed a) (hi : a.sched.running = some i)
    (h0 : i ≠ 0) (hf : a.frame i = .user u) (hlive : ∀ j, j ≠ i → (Live a' j ↔ Live a j))
    (hframe : ∀ j, j ≠ i → a'.frame j = a.frame j)
    (hclient : ∀ d, d ≠ c → a'.g.client d = a.g.client d)
    (hc : cares (.user u) = some c ∨
      cares (.user u) = none ∧ ∀ r, (a.g.client c).phase ≠ .served r)
    (hw : ∀ d, cares (a'.frame i) = some d → d = c) : Touches a a' i c := by
  refine ⟨hlive, hframe, hclient, fun d hd => ?_, hw, fun j hji hj hcares => ?_⟩
  · rw [hf] at hd
    rcases hc with he | ⟨he, -⟩ <;> cases he.symm.trans hd
    rfl
  · rcases hc with he | ⟨-, hno⟩
    · exact hji (cares_inj hinv hund hj (live_of_running hi h0) hcares (hf ▸ he))
    · obtain ⟨r, hr⟩ := served_of_cares hinv hj hcares
      exact hno r hr

/-- What the acting thread does for a client is one of `Deal`, or it opens the barrier. -/
theorem Free.dealt (hinv : (desk a).Inv) (hund : Undisturbed a) (hi : a.sched.running = some i)
    (h0 : i ≠ 0) (hf : a.frame i = .user u) (hd : Free (a.view i) a.g u w g r)
    (hlive : ∀ j, Live a' j ↔ Live a j)
    (hframe : a'.frame = Function.update a.frame i (.user w)) (hg : a'.g = g) : Dealt S a a' := by
  have hi' := live_of_running hi h0
  have hf' : a'.frame i = .user w := by rw [hframe, Function.update_self]
  have hdeal : ∀ {c : Fin n} {x : Client} {ch : Role → ℕ},
      (cares (.user u) = some c ∨ cares (.user u) = none ∧
        ∀ r, (a.g.client c).phase ≠ .served r) → (∀ d, cares (.user w) = some d → d = c) →
      Deal c (a.g.client c) a.g.changes u w x ch → g.client = Function.update a.g.client c x →
      g.changes = ch → Dealt S a a' := by
    intro c x ch hc hw hd hclient hchanges
    have ht : Touches a a' i c := by
      refine touches_act hinv hund hi h0 hf (fun j _ => hlive j) (fun j hj => ?_) (fun d hd => ?_)
        hc (hf' ▸ hw)
      · rw [hframe, Function.update_of_ne hj]
      · rw [hg, hclient, Function.update_of_ne hd]
    exact .deal ht hi' ((hlive i).mpr hi') hf hf' hd (hg ▸ hclient) (hg ▸ hchanges)
  have hfit := hinv.fits i
  rw [desk_job hi', hf] at hfit
  have hentered : ∀ {role c sl g₁}, Enters (a.view i) a.g u role c sl g₁ →
      (a.g.client c).phase = .served (.op role) := by
    intro role c sl g₁ hE
    rcases hE.cases with rfl | rfl
    · exact hfit.2.1
    · exact hfit.2.2
  cases hd with
  | recv hc =>
    refine hdeal (.inr ⟨rfl, fun r hr => ?_⟩) (fun d hd => ?_) (.recv hc) rfl rfl
    · cases hc.symm.trans hr
    · exact (Option.some.inj hd).symm
  | init =>
    exact hdeal (.inl rfl) (fun d hd => (Option.some.inj hd).symm) (.init hfit.2.1) rfl rfl
  | immd =>
    exact hdeal (.inl rfl) nofun (.immd hfit.2.1) (Function.update_eq_self ..).symm rfl
  | @register c id =>
    have hj : (desk a).job i = .inited c id := by rw [desk_job hi', hf]; rfl
    by_cases hnew : n = (desk a).g.clientNew
    · obtain ⟨idOf, -, hopen⟩ := hinv.registerClient_eq hj (hund.alone hi) hnew
      refine .welcome (fun d => hinv.served_init hj (hinv.given_of_all hnew d)) (fun d => ?_) ?_
        hlive
      · refine ⟨some (initMessage (idOf d)), ?_⟩
        rw [hg]
        exact congrArg (fun g => g.client d) hopen
      · have hsame := congrArg Shared.changes hopen
        rw [hg]
        exact hsame
    · have hclosed : (a.g.saveCaller (a.view i).slot).registerClient id (a.view i).slot =
          ((desk a).atBarrier i id).g := if_neg fun hb => hnew (eq_of_beq hb)
      refine hdeal (.inl rfl) nofun (.register hfit.2.1) ?_ ?_ <;> rw [hclosed]
      · exact (Function.update_eq_self ..).symm
      · rfl
  | @change _ role c sl p g₁ hE hb hp =>
    obtain ⟨howes, hclient, hchanges⟩ := hE.owes
    refine hdeal (.inl (cares_of_owes howes)) (fun d hd => (Option.some.inj hd).symm)
      (.change (hentered hE) howes) ?_ ?_
    · simp only [Shared.change, Shared.setClient, hclient]
    · simp only [Shared.change, hchanges]
  | @sleep _ role c sl p g₁ hE hb hp =>
    obtain ⟨howes, hclient, hchanges⟩ := hE.owes
    refine hdeal (.inl (cares_of_owes howes)) (fun d hd => (Option.some.inj hd).symm)
      (.sleep (hentered hE) howes) ?_ hchanges
    rw [hclient, Function.update_eq_self]
  | @reply role c sl =>
    obtain ⟨hslot, hcap, hphase⟩ := hfit
    have hsend : a.g.send (a.view i).slot none =
        { a.g.setClient c ((a.g.client c).answer none) with
          cap := Function.update a.g.cap (a.view i).slot none } := by
      have hcap' : a.g.cap (a.view i).slot = some c := by
        change a.g.cap (a.slot i) = some c
        rw [show a.slot i = sl from hslot]
        exact hcap
      rw [Shared.send_of_cap hcap']
    refine hdeal (.inl rfl) nofun (.reply hphase) ?_ ?_ <;> rw [hsend]
    · rfl
    · rfl

end Act

/-- **Every step** does one of these things to the clients, of which the books are proved by
cases. -/
theorem FreeStep.dealt (hs : FreeStep S a a') (hinv : (desk a).Inv) (hund : Undisturbed a) :
    Dealt S a a' := by
  cases hs with
  | main hi hg hwait hrun hready hold hnew =>
    obtain ⟨q, hg⟩ := hg
    exact .quiet (by rw [hg]) (by rw [hg]) hold hnew
  | @act i u w r g hi h0 hf hd hstep hframe hg =>
    have hr : r ≠ .exit := by
      rintro rfl
      cases hd
    exact hd.dealt hinv hund hi h0 hf (live_iff_act hi hstep hr) hframe hg
  | @exit i c hi h0 hf hstep hframe hg =>
    have hfit := hinv.fits i
    rw [desk_job (live_of_running hi h0), hf] at hfit
    have hleft : ¬ Live a' i := fun h => ((live_iff_exit hi hstep i).mp h).2 rfl
    refine .leave (i := i) (c := c) ?_ (live_of_running hi h0) hleft hfit.2.1 (by rw [hg]; rfl)
      (by rw [hg]; rfl)
    refine touches_act hinv hund hi h0 hf (fun j hj => ?_) (fun j _ => by rw [hframe])
      (fun d hd => ?_) (.inl rfl) (fun d hd => ?_)
    · rw [live_iff_exit hi hstep, and_iff_left hj]
    · rw [hg]
      exact Function.update_of_ne hd ..
    · rw [hframe, hf] at hd
      exact (Option.some.inj hd).symm
  | ask hc hsched hframe hg =>
    exact .ask hc (by rw [hg]; rfl) (by rw [hg]; rfl) (fun j => by rw [Live, Live, hsched]) hframe

/-! ## The books -/

/-- The client that a thread deals with: its book is right afterwards, case by case. -/
theorem BookOf.deal {u w : GreenPc n} {x : Client} {ch ch' : Role → ℕ} (h : BookOf k a c)
    (ht : Touches a a' i c) (hi : Live a i) (hi' : Live a' i) (hf : a.frame i = .user u)
    (hf' : a'.frame i = .user w) (hd : Deal c (a.g.client c) ch u w x ch')
    (hx : a'.g.client c = x) : BookOf k a' c := by
  have howing := ht.somebody_self fun _ _ => cares_of_owes
  have hcares := ht.somebody_self (φ := cares) fun _ _ he => he
  have hbefore := ht.somebody_before fun _ _ => cares_of_owes
  rw [hf', and_iff_right hi'] at howing hcares
  rw [hf, and_iff_right hi] at hbefore
  rw [BookOf, hbefore] at h
  rw [BookOf, hx, howing, hcares]
  cases hd with
  | @recv r hp =>
    rw [hp] at h
    cases r with
    | init => exact h
    | op role => exact ⟨h.1, h.2.1, rfl, .inl ⟨rfl, h.2.2⟩⟩
    | tmnt => exact ⟨rfl, h⟩
    | immd => exact h.elim
  | init hp =>
    rw [hp] at h ⊢
    exact h
  | immd hp =>
    rw [hp] at h
    exact h.elim
  | register hp =>
    rw [hp] at h ⊢
    exact h
  | change hp hu =>
    rw [hp] at h ⊢
    obtain ⟨hrole, hle, -, ⟨-, hops⟩ | ⟨hnot, -⟩⟩ := h
    · exact ⟨hrole, hle, rfl, .inr ⟨nofun, hops⟩⟩
    · exact absurd hu hnot
  | sleep hp hu =>
    rw [hp] at h ⊢
    obtain ⟨hrole, hle, -, ⟨-, hops⟩ | ⟨hnot, -⟩⟩ := h
    · exact ⟨hrole, hle, rfl, .inl ⟨rfl, hops⟩⟩
    · exact absurd hu hnot
  | reply hp =>
    rw [hp] at h
    obtain ⟨-, hle, -, ⟨howes, -⟩ | ⟨-, hops⟩⟩ := h
    · cases howes
    · exact ⟨hle, hops⟩

/-- The shares change as the numbers of changes do. A client that gets its id has no changes yet. -/
theorem Deal.share {u w : GreenPc n} {x x' : Client} {ch ch' : Role → ℕ} {owing attended : Prop}
    (hd : Deal c x ch u w x' ch') (hb : x.Booked k owing attended x.phase) (role : Role) :
    ch' role + x.share role = ch role + x'.share role := by
  cases hd with
  | recv | immd | register | sleep | reply => rfl
  | @init id hp =>
    rw [hp] at hb
    have hnew : Client.share role { x with given := some id } = 0 := Client.share_of_ops hb.2
    rw [hnew, Client.share_of_ops hb.2]
  | @change u role' sl hp hu =>
    rw [hp] at hb
    have hrole : x.role = some role' := hb.1
    rcases eq_or_ne role role' with rfl | hne
    · have hnew : Client.share role { x with ops := x.ops + 1 } = x.ops + 1 := if_pos hrole
      rw [Function.update_self, hnew, Client.share, if_pos hrole]
      omega
    · have hother : x.role ≠ some role := by
        rw [hrole]
        exact fun he => hne (Option.some.inj he).symm
      have hnew : Client.share role { x with ops := x.ops + 1 } = 0 := if_neg hother
      rw [Function.update_of_ne hne, hnew, Client.share, if_neg hother]

/-- A client makes its next call, as `client_program` allows it. -/
theorem BookOf.ask {r : Request} (h : BookOf k a c) (hinv : (desk a).Inv)
    (hc : (a.g.client c).phase = .fresh ∧ r = .init ∨ (a.g.client c).phase = .idle ∧ r ≠ .init ∧
      (a.g.client c).program k r = true)
    (hx : a'.g.client c = (a.g.client c).ask r) : BookOf k a' c := by
  rw [BookOf] at h
  rw [BookOf, hx]
  rcases hc with ⟨hp, rfl⟩ | ⟨hp, hr, hmay⟩ <;> rw [hp] at h
  · exact h
  · cases r with
    | init => exact absurd rfl hr
    | op role =>
      have hstands := hinv.stands c
      change (desk a).Stands c (a.g.client c).phase at hstands
      rw [hp] at hstands
      obtain ⟨id, hgiven, -, hid⟩ := hstands
      change (a.g.client c).given = some id at hgiven
      change (a.g.client c).id = id at hid
      obtain ⟨hlt, hrole⟩ : (a.g.client c).sent < k ∧ role = roleOf (a.g.client c).id := by
        simpa [Client.program] using hmay
      refine ⟨?_, hlt, ?_⟩
      · change (a.g.client c).given.map roleOf = some role
        rw [hgiven, hrole, hid]
        rfl
      · change (a.g.client c).ops + 1 = (a.g.client c).sent + 1
        rw [h.2]
    | tmnt =>
      have hsent : (a.g.client c).sent = k := by simpa [Client.program] using hmay
      exact ⟨hsent, h.2.trans hsent⟩
    | immd => cases hmay

/-- **The books**: one for each client, and the sum of their changes is the number of changes by a
role. -/
structure Books (k : ℕ) (a : AMach (GreenPc n) (Shared n)) : Prop where
  client : ∀ c, BookOf k a c
  changes : ∀ role, a.g.changes role = total (Client.share role) a.g.client

namespace Books

theorem client_next (h : Books k a) (hinv : (desk a).Inv) (hmay : S.may = Client.program k)
    (hd : Dealt S a a') (d : Fin n) : BookOf k a' d := by
  cases hd with
  | quiet hclient hchanges hold hnew =>
    have hsome : ∀ {φ : Frame (GreenPc n) → Option (Fin n)}, φ (.user .recv) = none →
        (Somebody φ a' d ↔ Somebody φ a d) := by
      intro φ hφ
      constructor
      · rintro ⟨j, hj, he⟩
        by_cases hjo : Live a j
        · exact ⟨j, hjo, (hold j hjo).2 ▸ he⟩
        · rw [hnew j hj hjo, hφ] at he
          cases he
      · rintro ⟨j, hj, he⟩
        exact ⟨j, (hold j hj).1, (hold j hj).2.symm ▸ he⟩
    rw [BookOf, hclient, hsome rfl, hsome rfl]
    exact h.client d
  | @deal i c u w x ch ht hi hi' hf hf' hd hclient hchanges =>
    rcases eq_or_ne d c with rfl | hne
    · exact (h.client d).deal ht hi hi' hf hf' hd (by rw [hclient, Function.update_self])
    · exact ht.bookOf_other hne (h.client d)
  | welcome hinit hclient hchanges =>
    obtain ⟨m, hm⟩ := hclient d
    have hbook := h.client d
    rw [BookOf, hinit d] at hbook
    rw [BookOf, hm]
    exact ⟨hbook.1.le.trans (Nat.zero_le k), hbook.2.trans hbook.1.symm⟩
  | @leave i c ht hi hi' hx hclient hchanges =>
    rcases eq_or_ne d c with rfl | hne
    · have hbook := h.client d
      rw [BookOf, hx] at hbook
      rw [BookOf, hclient, Function.update_self]
      exact hbook.2
    · exact ht.bookOf_other hne (h.client d)
  | @ask c r hc hclient hchanges hlive hframe =>
    rcases eq_or_ne d c with rfl | hne
    · exact (h.client d).ask hinv (hmay ▸ hc) (by rw [hclient, Function.update_self])
    · have hsome : ∀ {φ : Frame (GreenPc n) → Option (Fin n)},
          Somebody φ a' d ↔ Somebody φ a d := by
        intro φ
        simp only [Somebody, hlive, hframe]
      rw [BookOf, hclient, Function.update_of_ne hne, hsome, hsome]
      exact h.client d

/-- The clients of a role have changed the buffer as often as the role has, after each step. -/
theorem changes_next (h : Books k a) (hd : Dealt S a a') (role : Role) :
    a'.g.changes role = total (Client.share role) a'.g.client := by
  have hold := h.changes role
  cases hd with
  | quiet hclient hchanges => rw [hclient, hchanges, hold]
  | @deal i c u w x ch ht hi hi' hf hf' hd hclient hchanges =>
    have hmoved := total_update (Client.share role) a.g.client c x
    have hshare := hd.share (h.client c) role
    rw [hclient, hchanges]
    omega
  | welcome hinit hclient hchanges =>
    rw [hchanges, hold]
    refine Finset.sum_congr rfl fun d _ => ?_
    obtain ⟨m, hm⟩ := hclient d
    rw [hm]
    rfl
  | @leave i c ht hi hi' hx hclient hchanges =>
    have hmoved := total_update (Client.share role) a.g.client c
      { a.g.client c with phase := .gone }
    rw [hclient, hchanges, hold]
    exact (Nat.add_right_cancel hmoved).symm
  | @ask c r hc hclient hchanges =>
    have hmoved := total_update (Client.share role) a.g.client c ((a.g.client c).ask r)
    rw [hclient, hchanges, hold]
    exact (Nat.add_right_cancel hmoved).symm

theorem initial (h : a.Init S.program) : Books k a := by
  have hg : a.g = .initialClientPool n S.limit := h.g
  refine ⟨fun c => ?_, fun role => ?_⟩
  · rw [BookOf, hg]
    exact ⟨rfl, rfl⟩
  · rw [hg]
    exact (total_eq_zero.mpr fun c => Client.share_of_ops rfl).symm

theorem of_reach (hl : S.locked = false) (hmay : S.may = Client.program k)
    (ha : Reach S.program.aruns a) : Books k a := by
  induction ha with
  | init h₀ => exact initial h₀
  | step hr hs ih =>
    have hinv := inv_of_reach hr
    have hd := (freeStep hl hr hs).dealt hinv (.of_reach hr)
    exact ⟨ih.client_next hinv hmay hd, ih.changes_next hd⟩

end Books

end GreenServer

end GreenLib
