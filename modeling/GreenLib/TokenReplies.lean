import GreenLib.TokenDesk

/-!
# What the token server owes its clients

Two things are kept at the desk of the token server. `Caps` says where the reply capabilities are: a
client that waits for the token is the client of a thread, and its capability is in the slot of that
thread. `Told` says how the protocol begins: nobody is told anything until all clients have come,
then one client is told to send `WAIT`, and only this `WAIT` lets the others go on. So the first
request for the token is the one `WAIT` that is ever sent, and the answers to `INIT` go to clients
that do not wait for the token.

It follows that the two histories are kept in step with the jobs (`Inv.books`): a request for the
token is received when a thread begins to owe an answer, and answered when it ceases to. For a run
it follows that every answer goes to the right client and no request is lost (`token_routing`).
-/

namespace GreenLib

/-! ## Clients -/

namespace TokenClient

variable {x : TokenClient} {r : TokenRequest} {m : Option (ℕ × ℕ)} {k : ℕ}

@[simp] theorem waits_ask : (x.ask r).waits = false := rfl

@[simp] theorem waits_answer : (x.answer m).waits = false := rfl

theorem waits_of_served (h : x.phase = .served r) : x.waits = r.asksToken := by
  rw [waits, h]

theorem served_of_waits (h : x.waits = true) : ∃ r, x.phase = .served r ∧ r.asksToken = true := by
  unfold waits at h
  split at h
  · exact ⟨_, ‹_›, h⟩
  · cases h

theorem not_waits_of_may (h : x.may r = true) : ∀ r', x.phase ≠ .served r' := by
  intro r' hr
  simp [may, hr] at h

/-- The client has not been told anything: its `INIT` has not been answered, and may not even have
been made. -/
def Newcomer (x : TokenClient) : Prop :=
  x.told = none ∧ x.waited = false ∧
    (x.phase = .fresh ∨ x.phase = .asked .init ∨ x.phase = .served .init)

/-- The client has been told to send `WAIT`, and no `WAIT` has been received. It may also end with
`TMNT` instead. -/
def Opener (x : TokenClient) : Prop :=
  x.starts = true ∧
    match x.phase with
    | .asked .wait => x.waited = true
    | .idle | .gone | .asked .tmnt | .asked .immd | .served .tmnt | .served .immd =>
      x.waited = false
    | _ => False

/-- The client has been told something, and `WAIT` has been received, from it or from the other
one. -/
def Passing (x : TokenClient) : Prop :=
  x.told ≠ none ∧ x.starts = x.waited ∧
    match x.phase with
    | .fresh | .asked .init | .served .init | .asked .wait => False
    | _ => True

theorem Newcomer.not_waits (h : x.Newcomer) : x.waits = false := by
  obtain ⟨-, -, hp | hp | hp⟩ := h <;> rw [waits, hp]
  rfl

theorem Opener.not_waits (h : x.Opener) : x.waits = false := by
  obtain ⟨-, hp⟩ := h
  rcases hx : x.phase with _ | r | r | _ | _ <;> rw [waits, hx]
  rw [hx] at hp
  cases r <;> first | rfl | exact hp.elim

theorem Newcomer.ask (h : x.Newcomer) (hr : x.may r = true) : (x.ask r).Newcomer := by
  obtain ⟨ht, hw, hp | hp | hp⟩ := h <;> simp only [may, hp] at hr <;> cases r <;> cases hr
  exact ⟨ht, by simpa [TokenClient.ask] using hw, .inr (.inl rfl)⟩

theorem Opener.ask (h : x.Opener) (hr : x.may r = true) : (x.ask r).Opener := by
  obtain ⟨hs, hp⟩ := h
  refine ⟨hs, ?_⟩
  rcases hx : x.phase with _ | r' | r' | _ | _ <;> simp only [hx] at hp
  · simp [may, hx] at hr
  · simp [may, hx] at hr
  · cases r with
    | wait => exact Bool.or_true _
    | init | sendWait => simp [may, hx, hs, hp] at hr
    | tmnt | immd => exact (Bool.or_false _).trans hp
  · simp [may, hx] at hr

theorem Passing.ask (h : x.Passing) (hr : x.may r = true) : (x.ask r).Passing := by
  obtain ⟨ht, hs, hp⟩ := h
  rcases hx : x.phase with _ | r' | r' | _ | _ <;> simp only [hx] at hp
  · simp [may, hx] at hr
  · simp [may, hx] at hr
  · cases r with
    | wait | init => simp [may, hx, hs] at hr
    | sendWait | tmnt | immd => exact ⟨ht, hs.trans (Bool.or_false _).symm, trivial⟩
  · simp [may, hx] at hr

theorem Newcomer.receive (h : x.Newcomer) (hr : x.phase = .asked r) :
    r = .init ∧ (x.receive r).Newcomer := by
  obtain ⟨ht, hw, hp | hp | hp⟩ := h <;> cases hr.symm.trans hp
  exact ⟨rfl, ht, hw, .inr (.inr rfl)⟩

/-- The client that has been told sends `WAIT`, or something that is no request for the token. -/
theorem Opener.receive (h : x.Opener) (hr : x.phase = .asked r) :
    r = .wait ∧ (x.receive r).Passing ∨ r.asksToken = false ∧ (x.receive r).Opener := by
  obtain ⟨hs, hp⟩ := h
  rw [hr] at hp
  cases r with
  | wait =>
    refine .inl ⟨rfl, ?_, hs.trans hp.symm, trivial⟩
    intro ht
    simp [starts, show x.told = none from ht] at hs
  | init | sendWait => exact hp.elim
  | tmnt | immd => exact .inr ⟨rfl, hs, hp⟩

theorem Passing.receive (h : x.Passing) (hr : x.phase = .asked r) :
    r ≠ .wait ∧ (x.receive r).Passing := by
  obtain ⟨ht, hs, hp⟩ := h
  rw [hr] at hp
  cases r with
  | init | wait => exact hp.elim
  | sendWait | tmnt | immd => exact ⟨by simp, ht, hs, trivial⟩

theorem Newcomer.opens (h : x.Newcomer) : (x.answer (some (k, 1))).Opener := ⟨rfl, h.2.1⟩

theorem Newcomer.joins (h : x.Newcomer) : (x.answer (some (k, 0))).Passing :=
  ⟨by simp [answer], h.2.1.symm, trivial⟩

theorem Passing.answer (h : x.Passing) : (x.answer none).Passing := ⟨h.1, h.2.1, trivial⟩

theorem Opener.leave (h : x.Opener) (hp : x.phase = .served .tmnt) :
    Opener { x with phase := .gone } := by
  obtain ⟨hs, hm⟩ := h
  rw [hp] at hm
  exact ⟨hs, hm⟩

theorem Passing.leave (h : x.Passing) : Passing { x with phase := .gone } := ⟨h.1, h.2.1, trivial⟩

end TokenClient

/-! ## Answers -/

namespace TokenShared

variable {n : ℕ} {g : TokenShared n} {sl : ℕ} {m : Option (ℕ × ℕ)} {c : Fin n}

theorem send_of_none (h : g.cap sl = none) : g.send sl m = g := by
  rw [send, ClientPool.send_of_none h, h]
  simp

theorem send_of_cap (h : g.cap sl = some c) : g.send sl m =
    { g.setClient c ((g.client c).answer m) with
      cap := Function.update g.cap sl none
      answered := if (g.client c).waits then g.answered ++ [c] else g.answered } := by
  rw [send, ClientPool.send_of_cap h, h]
  cases hw : (g.client c).waits <;> simp [setClient, Option.filter, hw]

end TokenShared

namespace TokenServer

open Sched TokenJob

variable {n : ℕ} {T : TokenServer n} {x x' : TokenDesk n} {i k sl : ℕ} {c d : Fin n}
  {r : TokenRequest} {m : Option (ℕ × ℕ)}

/-! ## Capabilities -/

/-- **The reply capabilities**: each is in one slot, its client has a request at the server, and
nobody who waits for the token is without a thread. -/
structure Caps (x : TokenDesk n) : Prop where
  used : ∀ i, x.live i → x.used (x.slot i) = true
  inj : ∀ i j, x.live i → x.live j → x.slot i = x.slot j → i = j
  idle : ∀ i, ¬ x.live i → x.job i = .free
  capInj : ∀ sl sl' c, x.g.cap sl = some c → x.g.cap sl' = some c → sl = sl'
  /-- the client of a capability waits for the answer to `INIT`, or a thread has its request -/
  caps : ∀ sl c, x.g.cap sl = some c →
    (x.g.client c).phase = .served .init ∨ ∃ i, x.slot i = sl ∧ x.job i = .holding c
  holder : ∀ i c, x.job i = .holding c → x.g.cap (x.slot i) = some c ∧ (x.g.client c).waits = true
  caller : ∀ i c r, (x.job i).brings = some (c, r) →
    x.g.caller = some c ∧ (x.g.client c).phase = .served r ∧ ∀ sl, x.g.cap sl ≠ some c
  /-- a client that waits for the token is not forgotten -/
  waiting : ∀ c, (x.g.client c).waits = true → ∃ i, (x.job i).About c

/-- A thread that has not saved its caller has no request for the token in its slot. -/
theorem ne_of_brings (hb : (x.job i).brings = some (c, r)) (hk : x.job k = .holding d) : k ≠ i := by
  rintro rfl
  rw [hk] at hb
  cases hb

/-- No other thread is in between, so none has the job `j`. -/
theorem ne_of_alone {j : TokenJob n} (halone : ∀ k, k ≠ i → (x.job k).brings = none) (hki : k ≠ i)
    (hj : j.brings ≠ none) : x.job k ≠ j := by
  rintro rfl
  exact hj (halone k hki)

namespace Caps

theorem live_of_job (h : Caps x) (hj : x.job i ≠ .free) : x.live i := by
  by_contra hi
  exact hj (h.idle i hi)

/-- There is no capability for a client that has no request at the server, -/
theorem no_cap (h : Caps x) (hc : ∀ r, (x.g.client c).phase ≠ .served r) (sl : ℕ) :
    x.g.cap sl ≠ some c := by
  intro hcap
  rcases h.caps sl c hcap with hp | ⟨i, -, hj⟩
  · exact hc _ hp
  · obtain ⟨r, hr, -⟩ := TokenClient.served_of_waits (h.holder i c hj).2
    exact hc r hr

/-- nor has a thread anything to do with it. -/
theorem no_job (h : Caps x) (hc : ∀ r, (x.g.client c).phase ≠ .served r) (i : ℕ) :
    ¬ (x.job i).About c := by
  rintro (hj | ⟨r, hr⟩)
  · exact h.no_cap hc _ (h.holder i c hj).1
  · exact hc r (h.caller i c r hr).2.1

/-- A thread gets a new slot. It may be a new thread, and it has nothing in its old slot. -/
theorem newSlot (h : Caps x) (hi : ∀ c, x.job i ≠ .holding c) (hfree : x.used sl = false)
    (hlive : ∀ j, x'.live j ↔ j = i ∨ x.live j) (hjob : x'.job = x.job)
    (hslot : x'.slot = Function.update x.slot i sl)
    (hused : x'.used = Function.update x.used sl true) (hg : x'.g = x.g) : Caps x' := by
  have hne : ∀ k, x.live k → x.slot k ≠ sl := by
    intro k hk he
    have hk := h.used k hk
    rw [he, hfree] at hk
    cases hk
  have hself : x'.slot i = sl := by rw [hslot, Function.update_self]
  have hother : ∀ k, k ≠ i → x'.slot k = x.slot k := fun k hk => by
    rw [hslot, Function.update_of_ne hk]
  have hhold : ∀ {k c}, x.job k = .holding c → x'.slot k = x.slot k :=
    fun hk => hother _ fun he => hi _ (he ▸ hk)
  refine ⟨fun k hk => ?_, fun j k hj hk he => ?_, fun k hk => ?_, ?_, fun s c hc => ?_,
    fun k c hk => ?_, ?_, ?_⟩
  · rcases eq_or_ne k i with rfl | hki
    · rw [hused, hself, Function.update_self]
    · have hk := ((hlive k).mp hk).resolve_left hki
      rw [hused, hother k hki, Function.update_of_ne (hne k hk), h.used k hk]
  · by_cases hji : j = i <;> by_cases hki : k = i
    · exact hji.trans hki.symm
    · rw [hji, hself, hother k hki] at he
      exact absurd he.symm (hne k (((hlive k).mp hk).resolve_left hki))
    · rw [hki, hself, hother j hji] at he
      exact absurd he (hne j (((hlive j).mp hj).resolve_left hji))
    · rw [hother j hji, hother k hki] at he
      exact h.inj j k (((hlive j).mp hj).resolve_left hji) (((hlive k).mp hk).resolve_left hki) he
  · rw [hjob]
    exact h.idle k fun hk' => hk ((hlive k).mpr (.inr hk'))
  · rw [hg]
    exact h.capInj
  · rw [hg] at hc ⊢
    exact (h.caps s c hc).imp_right fun ⟨k, hs, hk⟩ => ⟨k, (hhold hk).trans hs, hjob ▸ hk⟩
  · rw [hjob] at hk
    rw [hg, hhold hk]
    exact h.holder k c hk
  · rw [hg, hjob]
    exact h.caller
  · rw [hg, hjob]
    exact h.waiting

/-- A thread goes on with the same request, still in between. -/
theorem goOn (h : Caps x) {j : TokenJob n} (hb : (x.job i).brings = some (c, r))
    (hj : j.brings = some (c, r)) : Caps { x with job := Function.update x.job i j } := by
  have hhold : ∀ {k d}, x.job k = .holding d → k ≠ i := ne_of_brings hb
  refine ⟨h.used, h.inj, fun k hk => ?_, h.capInj, fun s d hd => ?_, fun k d hk => ?_,
    fun k d r' hk => ?_, fun d hd => ?_⟩
  · have hki : k ≠ i := by
      rintro rfl
      rw [h.idle k hk] at hb
      cases hb
    exact (Function.update_of_ne hki ..).trans (h.idle k hk)
  · exact (h.caps s d hd).imp_right fun ⟨k, hs, hk⟩ =>
      ⟨k, hs, (Function.update_of_ne (hhold hk) ..).trans hk⟩
  · rcases eq_or_ne k i with rfl | hki
    · rw [show j = .holding d from (Function.update_self k j x.job).symm.trans hk] at hj
      cases hj
    · exact h.holder k d ((Function.update_of_ne hki ..).symm.trans hk)
  · rcases eq_or_ne k i with rfl | hki
    · simp only [Function.update_self] at hk
      exact h.caller k d r' (hb.trans (hj.symm.trans hk))
    · simp only [Function.update_of_ne hki] at hk
      exact h.caller k d r' hk
  · obtain ⟨k, hk⟩ := h.waiting d hd
    refine ⟨k, ?_⟩
    rcases eq_or_ne k i with rfl | hki
    · rcases hk with hk | ⟨r', hk⟩
      · exact absurd rfl (hhold hk)
      · refine .inr ⟨r', ?_⟩
        simp only [Function.update_self]
        exact hj.trans (hb.symm.trans hk)
    · simpa only [Function.update_of_ne hki] using hk

/-- `seL4_Recv`: from now on the thread is about the client, whose capability is with the kernel. -/
theorem recv (h : Caps x) (hi : x.live i) (hj : x.job i = .free)
    (halone : ∀ k, k ≠ i → (x.job k).brings = none) (hc : (x.g.client c).phase = .asked r) :
    Caps { x with job := Function.update x.job i (.got c r), g := x.g.receive c r } := by
  have hnone : ∀ r, (x.g.client c).phase ≠ .served r := by simp [hc]
  have hcap := h.no_cap hnone
  have hclient : ∀ d, d ≠ c → (x.g.receive c r).client d = x.g.client d :=
    fun d hd => Function.update_of_ne hd ..
  have hjob : ∀ k, k ≠ i → Function.update x.job i (.got c r) k = x.job k :=
    fun k hk => Function.update_of_ne hk ..
  have hself : (x.g.receive c r).client c = (x.g.client c).receive r := Function.update_self ..
  refine ⟨h.used, h.inj, fun k hk => ?_, h.capInj, fun s d hd => ?_, fun k d hk => ?_,
    fun k d r' hk => ?_, fun d hd => ?_⟩
  · have hki : k ≠ i := fun he => hk (he ▸ hi)
    exact (hjob k hki).trans (h.idle k hk)
  · have hdc : d ≠ c := fun he => hcap s (he ▸ hd)
    rw [show (x.g.receive c r).client d = _ from hclient d hdc]
    refine (h.caps s d hd).imp_right fun ⟨k, hs, hk⟩ => ⟨k, hs, ?_⟩
    refine (hjob k ?_).trans hk
    rintro rfl
    cases hj.symm.trans hk
  · rcases eq_or_ne k i with rfl | hki
    · cases (Function.update_self ..).symm.trans hk
    · obtain ⟨h₁, h₂⟩ := h.holder k d ((hjob k hki).symm.trans hk)
      refine ⟨h₁, ?_⟩
      rwa [show (x.g.receive c r).client d = _ from hclient d fun he => hcap _ (he ▸ h₁)]
  · rcases eq_or_ne k i with rfl | hki
    · simp only [Function.update_self, brings, Option.some.injEq, Prod.mk.injEq] at hk
      obtain ⟨rfl, rfl⟩ := hk
      exact ⟨rfl, by simp only [hself, TokenClient.receive], hcap⟩
    · simp only [hjob k hki, halone k hki] at hk
      cases hk
  · rcases eq_or_ne d c with rfl | hdc
    · refine ⟨i, .inr ⟨r, ?_⟩⟩
      simp only [Function.update_self, brings]
    · simp only [hclient d hdc] at hd
      obtain ⟨k, hk⟩ := h.waiting d hd
      refine ⟨k, ?_⟩
      rcases eq_or_ne k i with rfl | hki
      · rw [hj] at hk
        rcases hk with hk | ⟨_, hk⟩ <;> cases hk
      · simpa only [hjob k hki] using hk

/-- `vka_cnode_saveCaller`: an `INIT` is left in its slot, and a request for the token stays with
the thread. -/
theorem save (h : Caps x) (hi : x.live i) (hb : (x.job i).brings = some (c, r))
    (halone : ∀ k, k ≠ i → (x.job k).brings = none) {j : TokenJob n}
    (hj : r = .init ∧ j = .free ∨ r.asksToken = true ∧ j = .holding c) :
    Caps { x with job := Function.update x.job i j, g := x.g.saveCaller (x.slot i) } := by
  obtain ⟨hcaller, hphase, hcap⟩ := h.caller i c r hb
  have hjob : ∀ k, k ≠ i → Function.update x.job i j k = x.job k :=
    fun k hk => Function.update_of_ne hk ..
  have hjb : j.brings = none := by rcases hj with ⟨-, rfl⟩ | ⟨-, rfl⟩ <;> rfl
  have hhold : ∀ {k d}, x.job k = .holding d → k ≠ i := ne_of_brings hb
  have hslot : ∀ {s d}, (x.g.saveCaller (x.slot i)).cap s = some d →
      s = x.slot i ∧ d = c ∨ s ≠ x.slot i ∧ x.g.cap s = some d := by
    intro s d hs
    simp only [TokenShared.saveCaller, ClientPool.saveCaller, hcaller] at hs
    rcases eq_or_ne s (x.slot i) with rfl | hne
    · rw [Function.update_self] at hs
      exact .inl ⟨rfl, (Option.some.inj hs).symm⟩
    · rw [Function.update_of_ne hne] at hs
      exact .inr ⟨hne, hs⟩
  refine ⟨h.used, h.inj, fun k hk => ?_, fun s s' d hs hs' => ?_, fun s d hd => ?_,
    fun k d hk => ?_, fun k d r' hk => ?_, fun d hd => ?_⟩
  · exact (hjob k fun he => hk (he ▸ hi)).trans (h.idle k hk)
  · rcases hslot hs with ⟨rfl, rfl⟩ | ⟨-, hs⟩ <;> rcases hslot hs' with ⟨rfl, he⟩ | ⟨-, hs'⟩
    · rfl
    · exact absurd hs' (hcap _)
    · exact absurd (he ▸ hs) (hcap _)
    · exact h.capInj s s' d hs hs'
  · rcases hslot hd with ⟨rfl, rfl⟩ | ⟨-, hd⟩
    · rcases hj with ⟨rfl, rfl⟩ | ⟨-, rfl⟩
      · exact .inl hphase
      · exact .inr ⟨i, rfl, Function.update_self ..⟩
    · exact (h.caps s d hd).imp_right fun ⟨k, hs, hk⟩ => ⟨k, hs, (hjob k (hhold hk)).trans hk⟩
  · rcases eq_or_ne k i with rfl | hki
    · replace hk : j = .holding d := (Function.update_self k j x.job).symm.trans hk
      rcases hj with ⟨-, rfl⟩ | ⟨hr, rfl⟩
      · cases hk
      · obtain rfl := TokenJob.holding.inj hk
        refine ⟨?_, (TokenClient.waits_of_served hphase).trans hr⟩
        simp only [TokenShared.saveCaller, ClientPool.saveCaller, hcaller, Function.update_self]
    · replace hk : x.job k = .holding d := (hjob k hki).symm.trans hk
      obtain ⟨h₁, h₂⟩ := h.holder k d hk
      have hne : x.slot k ≠ x.slot i :=
        fun he => hki (h.inj k i (h.live_of_job (by simp [hk])) hi he)
      exact ⟨(Function.update_of_ne hne ..).trans h₁, h₂⟩
  · exfalso
    rcases eq_or_ne k i with rfl | hki
    · simp only [Function.update_self, hjb] at hk
      cases hk
    · simp only [hjob k hki, halone k hki] at hk
      cases hk
  · obtain ⟨k, hk⟩ := h.waiting d hd
    rcases eq_or_ne k i with rfl | hki
    · rcases hk with hk | ⟨r', hk⟩
      · exact absurd rfl (hhold hk)
      · obtain ⟨rfl, rfl⟩ := Prod.mk.inj (Option.some.inj (hk.symm.trans hb))
        rcases hj with ⟨rfl, -⟩ | ⟨-, rfl⟩
        · cases (TokenClient.waits_of_served hphase).symm.trans hd
        · exact ⟨k, .inl (Function.update_self ..)⟩
    · exact ⟨k, by simpa only [hjob k hki] using hk⟩

/-- `seL4_Send` to the client `c`, whom no thread has to answer any more. -/
theorem send (h : Caps x) (hc : x.g.cap sl = some c) {job : ℕ → TokenJob n}
    (hjob : ∀ k, job k = x.job k ∨ job k = .free ∧ x.job k = .holding c)
    (hno : ∀ k, job k ≠ .holding c) : Caps { x with job := job, g := x.g.send sl m } := by
  rw [TokenShared.send_of_cap hc]
  have hcap : ∀ {s d}, Function.update x.g.cap sl none s = some d →
      x.g.cap s = some d ∧ d ≠ c := by
    intro s d hs
    rcases eq_or_ne s sl with rfl | hne
    · cases (Function.update_self ..).symm.trans hs
    · rw [Function.update_of_ne hne] at hs
      exact ⟨hs, fun he => hne (h.capInj s sl c (he ▸ hs) hc)⟩
  have hclient : ∀ {d}, d ≠ c →
      Function.update x.g.client c ((x.g.client c).answer m) d = x.g.client d :=
    fun hd => Function.update_of_ne hd ..
  have hsame : ∀ {k}, job k ≠ .free → job k = x.job k :=
    fun hk => (hjob _).resolve_right fun he => hk he.1
  have habout : ∀ {k d}, d ≠ c → (x.job k).About d → (job k).About d := by
    intro k d hd hk
    rcases hjob k with he | ⟨-, he⟩
    · rwa [he]
    · rw [he] at hk
      rcases hk with hk | ⟨r, hk⟩
      · exact absurd (TokenJob.holding.inj hk).symm hd
      · cases hk
  refine ⟨h.used, h.inj, fun k hk => ?_, fun s s' d hs hs' => ?_, fun s d hd => ?_,
    fun k d hk => ?_, fun k d r hk => ?_, fun d hd => ?_⟩
  · exact (hjob k).elim (fun he => he.trans (h.idle k hk)) And.left
  · exact h.capInj s s' d (hcap hs).1 (hcap hs').1
  · obtain ⟨hs, hdc⟩ := hcap hd
    change (Function.update x.g.client c _ d).phase = _ ∨ _
    rw [hclient hdc]
    refine (h.caps s d hs).imp_right fun ⟨k, hks, hk⟩ => ⟨k, hks, ?_⟩
    refine ((hjob k).resolve_right fun he => ?_).trans hk
    exact hdc (TokenJob.holding.inj (hk.symm.trans he.2))
  · have hdc : d ≠ c := fun he => hno k (he ▸ hk)
    have hkj : x.job k = .holding d := (hsame (by simp [show job k = _ from hk])).symm.trans hk
    obtain ⟨h₁, h₂⟩ := h.holder k d hkj
    have hne : x.slot k ≠ sl := by
      rintro rfl
      exact hdc (Option.some.inj (h₁.symm.trans hc))
    refine ⟨(Function.update_of_ne hne ..).trans h₁, ?_⟩
    change (Function.update x.g.client c _ d).waits = true
    rwa [hclient hdc]
  · have hkj : (x.job k).brings = some (d, r) := by
      rw [← hsame fun he => ?_]
      · exact hk
      · change (job k).brings = _ at hk
        rw [he] at hk
        cases hk
    obtain ⟨h₁, h₂, h₃⟩ := h.caller k d r hkj
    have hdc : d ≠ c := fun he => h₃ sl (he ▸ hc)
    refine ⟨h₁, ?_, fun s hs => h₃ s (hcap hs).1⟩
    change (Function.update x.g.client c _ d).phase = _
    rwa [hclient hdc]
  · change (Function.update x.g.client c _ d).waits = true at hd
    rcases eq_or_ne d c with rfl | hdc
    · rw [Function.update_self] at hd
      cases hd
    · rw [hclient hdc] at hd
      obtain ⟨k, hk⟩ := h.waiting d hd
      exact ⟨k, habout hdc hk⟩

/-- The answer to an `INIT`, which no thread has any more. If the slot is empty, nothing happens. -/
theorem announce (h : Caps x)
    (hc : ∀ c, x.g.cap sl = some c → (x.g.client c).phase = .served .init) :
    Caps { x with g := x.g.send sl m } := by
  rcases hcap : x.g.cap sl with _ | c
  · rwa [TokenShared.send_of_none hcap]
  · refine h.send hcap (fun _ => .inl rfl) fun k hk => ?_
    cases (TokenClient.waits_of_served (hc c hcap)).symm.trans (h.holder k c hk).2

/-- The answer to a client with the token, through the slot of its thread. -/
theorem reply (h : Caps x) (hj : x.job i = .holding c) :
    Caps { x with job := Function.update x.job i .free, g := x.g.send (x.slot i) none } := by
  have hcap := (h.holder i c hj).1
  have hi := h.live_of_job (i := i) (by simp [hj])
  refine h.send hcap (fun k => ?_) fun k hk => ?_
  · rcases eq_or_ne k i with rfl | hki
    · exact .inr ⟨Function.update_self .., hj⟩
    · exact .inl (Function.update_of_ne hki ..)
  · rcases eq_or_ne k i with rfl | hki
    · cases (Function.update_self ..).symm.trans hk
    · replace hk : x.job k = .holding c := (Function.update_of_ne hki ..).symm.trans hk
      have hk' := h.live_of_job (i := k) (by simp [hk])
      exact hki (h.inj k i hk' hi (h.capInj _ _ c (h.holder k c hk).1 hcap))

/-- A thread forgets a request that is not for the token, and the client is not answered. -/
theorem drop (h : Caps x) (hi : x.live i) (hb : (x.job i).brings = some (c, r))
    (hr : r.asksToken = false) : Caps { x with job := Function.update x.job i .free } := by
  have hjob : ∀ {k}, Function.update x.job i .free k ≠ .free →
      Function.update x.job i .free k = x.job k := by
    intro k hk
    rcases eq_or_ne k i with rfl | hki
    · exact absurd (Function.update_self ..) hk
    · exact Function.update_of_ne hki ..
  have hhold : ∀ {k d}, x.job k = .holding d → k ≠ i := ne_of_brings hb
  refine ⟨h.used, h.inj, fun k hk => ?_, h.capInj, fun s d hd => ?_, fun k d hk => ?_,
    fun k d r' hk => ?_, fun d hd => ?_⟩
  · have hki : k ≠ i := fun he => hk (he ▸ hi)
    exact (Function.update_of_ne hki ..).trans (h.idle k hk)
  · exact (h.caps s d hd).imp_right fun ⟨k, hs, hk⟩ =>
      ⟨k, hs, (Function.update_of_ne (hhold hk) ..).trans hk⟩
  · have hne : Function.update x.job i .free k ≠ .free := fun he => by cases he.symm.trans hk
    exact h.holder k d ((hjob hne).symm.trans hk)
  · refine h.caller k d r' ?_
    rw [← hjob fun he => ?_]
    · exact hk
    · change (Function.update x.job i .free k).brings = _ at hk
      rw [he] at hk
      cases hk
  · obtain ⟨k, hk⟩ := h.waiting d hd
    rcases eq_or_ne k i with rfl | hki
    · rcases hk with hk | ⟨r', hk⟩
      · exact absurd rfl (hhold hk)
      · obtain ⟨rfl, rfl⟩ := Prod.mk.inj (Option.some.inj (hk.symm.trans hb))
        cases ((TokenClient.waits_of_served (h.caller k _ _ hb).2.1).trans hr).symm.trans hd
    · exact ⟨k, by simpa only [Function.update_of_ne hki] using hk⟩

/-- A client changes that the server has nothing to do with, and does not wait for the token. -/
theorem setClient (h : Caps x) {y : TokenClient} (hcap : ∀ sl, x.g.cap sl ≠ some c)
    (hjob : ∀ i, ¬ (x.job i).About c) (hy : y.waits = false) :
    Caps { x with g := x.g.setClient c y } := by
  have hclient : ∀ {d}, d ≠ c → (x.g.setClient c y).client d = x.g.client d :=
    fun hd => Function.update_of_ne hd ..
  refine ⟨h.used, h.inj, h.idle, h.capInj, fun s d hd => ?_, fun k d hk => ?_, fun k d r hk => ?_,
    fun d hd => ?_⟩
  · simp only [hclient fun he : d = c => hcap s (he ▸ hd)]
    exact h.caps s d hd
  · simp only [hclient fun he : d = c => hjob k (he ▸ .inl hk)]
    exact h.holder k d hk
  · simp only [hclient fun he : d = c => hjob k (he ▸ .inr ⟨r, hk⟩)]
    exact h.caller k d r hk
  · rcases eq_or_ne d c with rfl | hdc
    · simp only [TokenShared.setClient, Function.update_self, hy] at hd
      cases hd
    · simp only [hclient hdc] at hd
      exact h.waiting d hd

end Caps

/-! ## How the protocol begins -/

/-- How far the protocol is. It goes through these stages once. -/
inductive Stage (n : ℕ) : Type where
  /-- some clients have not come yet -/
  | before
  /-- client `s` has been told to send `WAIT` -/
  | opened (s : Fin n)
  /-- its `WAIT` has been received -/
  | passed

/-- What a client has been told, by the stage. Only one client is told to send `WAIT`. -/
def Stage.Fits : Stage n → Fin n → TokenClient → Prop
  | .before, _, y => y.Newcomer
  | .opened s, c, y => if c = s then y.Opener else y.Newcomer
  | .passed, _, y => y.Newcomer ∨ y.Passing

namespace Stage

variable {st : Stage n} {y : TokenClient}

theorem Fits.ask (h : st.Fits c y) (hr : y.may r = true) : st.Fits c (y.ask r) := by
  cases st with
  | before => exact TokenClient.Newcomer.ask h hr
  | opened s =>
    simp only [Fits] at h ⊢
    split <;> rename_i hc <;> simp only [hc, if_true, if_false] at h
    · exact h.ask hr
    · exact h.ask hr
  | passed => exact h.imp (·.ask hr) (·.ask hr)

/-- A request that is not `WAIT` does not change the stage, whoever sends it. -/
theorem Fits.receive (h : st.Fits c y) (hr : y.phase = .asked r) (hw : r ≠ .wait) :
    st.Fits c (y.receive r) := by
  cases st with
  | before => exact (TokenClient.Newcomer.receive h hr).2
  | opened s =>
    simp only [Fits] at h ⊢
    split <;> rename_i hc <;> simp only [hc, if_true, if_false] at h
    · exact (h.receive hr).elim (fun he => absurd he.1 hw) And.right
    · exact (h.receive hr).2
  | passed => exact h.imp (fun h => (h.receive hr).2) fun h => (h.receive hr).2

/-- `WAIT` comes from the client that has been told, and the stage is over with it. -/
theorem Fits.wait (h : st.Fits c y) (hr : y.phase = .asked .wait) :
    st = .opened c ∧ (y.receive .wait).Passing := by
  cases st with
  | before => cases (TokenClient.Newcomer.receive h hr).1
  | opened s =>
    simp only [Fits] at h
    split at h
    · rename_i hc
      subst hc
      exact ⟨rfl, (h.receive hr).elim And.right fun he => by cases he.1⟩
    · cases (h.receive hr).1
  | passed =>
    rcases h with h | h
    · cases (h.receive hr).1
    · exact absurd rfl (h.receive hr).1

/-- `SEND_WAIT` comes after `WAIT`, since only clients that have been told to go on send it. -/
theorem Fits.sendWait (h : st.Fits c y) (hr : y.phase = .asked .sendWait) : st = .passed := by
  cases st with
  | before => cases (TokenClient.Newcomer.receive h hr).1
  | opened s =>
    simp only [Fits] at h
    split at h
    · rcases h.receive hr with ⟨he, -⟩ | ⟨he, -⟩ <;> cases he
    · cases (h.receive hr).1
  | passed => rfl

/-- Nobody waits before `WAIT` has been received: nobody else may ask for the token. -/
theorem Fits.passed (h : st.Fits c y) (hw : y.waits = true) : st = .passed ∧ y.Passing := by
  cases st with
  | before => cases (TokenClient.Newcomer.not_waits h).symm.trans hw
  | opened s =>
    simp only [Fits] at h
    split at h
    · cases h.not_waits.symm.trans hw
    · cases h.not_waits.symm.trans hw
  | passed =>
    rcases h with h | h
    · cases h.not_waits.symm.trans hw
    · exact ⟨rfl, h⟩

theorem Fits.leave (h : st.Fits c y) (hp : y.phase = .served .tmnt) :
    st.Fits c { y with phase := .gone } := by
  have hno : ¬ y.Newcomer := by
    rintro ⟨-, -, he | he | he⟩ <;> cases hp.symm.trans he
  cases st with
  | before => exact absurd h hno
  | opened s =>
    simp only [Fits] at h ⊢
    split <;> rename_i hc <;> simp only [hc, if_true, if_false] at h
    · exact h.leave hp
    · exact absurd h hno
  | passed => exact .inr (h.resolve_left hno).leave

/-- A client that waits for the answer to `INIT` has been told nothing. -/
theorem Fits.newcomer (h : st.Fits c y) (hp : y.phase = .served .init) : y.Newcomer := by
  cases st with
  | before => exact h
  | opened s =>
    simp only [Fits] at h
    split at h
    · have hm := h.2
      rw [hp] at hm
      exact hm.elim
    · exact h
  | passed =>
    refine h.resolve_right fun h => ?_
    have hm := h.2.2
    rw [hp] at hm
    exact hm.elim

end Stage

/-- **What the clients have been told**, in a stage, and what follows for the histories and the
ids. -/
structure Told (st : Stage n) (x : TokenDesk n) : Prop where
  client : ∀ c, st.Fits c (x.g.client c)
  received : st = .passed ↔ x.g.received ≠ []
  numbered : ∀ i c id, x.job i = .inited c id → id + 1 = x.g.clientNew
  /-- all clients have come, so no further one will be the last -/
  complete : st ≠ .before →
    n ≤ x.g.clientNew ∧ ∀ i c id, x.job i = .inited c id → n ≤ id
  /-- when `WAIT` is handled, nobody else waits -/
  only : ∀ i c, x.job i = .got c .wait → ∀ d, (x.g.client d).waits = true → d = c

namespace Told

variable {st : Stage n}

/-- The stage does not change, if the clients still fit it and no request is received. -/
theorem keep (h : Told st x) (hclient : ∀ c, st.Fits c (x'.g.client c))
    (hreceived : x'.g.received = x.g.received) (hnew : x'.g.clientNew = x.g.clientNew)
    (hjob : ∀ i, (x'.job i).brings ≠ none → x'.job i = x.job i)
    (hwaits : ∀ d, (x'.g.client d).waits = true → (x.g.client d).waits = true) : Told st x' := by
  have hinited : ∀ i c id, x'.job i = .inited c id → x.job i = .inited c id :=
    fun i c id hi => (hjob i (by simp [hi, brings])).symm.trans hi
  refine ⟨hclient, ?_, fun i c id hi => ?_, fun hst => ?_, fun i c hi d hd => ?_⟩
  · rw [hreceived]
    exact h.received
  · rw [hnew]
    exact h.numbered i c id (hinited i c id hi)
  · rw [hnew]
    exact ⟨(h.complete hst).1, fun i c id hi => (h.complete hst).2 i c id (hinited i c id hi)⟩
  · exact h.only i c ((hjob i (by simp [hi, brings])).symm.trans hi) d (hwaits d hd)

/-- One client changes, and it fits the stage after it. -/
theorem fits_update (h : ∀ c, st.Fits c (x.g.client c)) {y : TokenClient} (hy : st.Fits c y)
    (d : Fin n) : st.Fits d (Function.update x.g.client c y d) := by
  rcases eq_or_ne d c with rfl | hne
  · rwa [Function.update_self]
  · rw [Function.update_of_ne hne]
    exact h d

theorem waits_update {y : TokenClient} (hy : y.waits = true → (x.g.client c).waits = true)
    (hd : (Function.update x.g.client c y d).waits = true) : (x.g.client d).waits = true := by
  rcases eq_or_ne d c with rfl | hne
  · rw [Function.update_self] at hd
    exact hy hd
  · rwa [Function.update_of_ne hne] at hd

/-- A thread that is done with a request brings none, so whoever brings one did so before. -/
theorem brings_update {j : TokenJob n} (hj : j.brings = none)
    (hk : (Function.update x.job i j k).brings ≠ none) :
    Function.update x.job i j k = x.job k := by
  rcases eq_or_ne k i with rfl | hne
  · rw [Function.update_self] at hk
    exact absurd hj hk
  · rw [Function.update_of_ne hne]

/-- `seL4_Recv`: the stage changes if the request is `WAIT`, and nobody else waits then. -/
theorem recv (h : Told st x) (halone : ∀ k, k ≠ i → (x.job k).brings = none)
    (hc : (x.g.client c).phase = .asked r) :
    ∃ st, Told st { x with job := Function.update x.job i (.got c r), g := x.g.receive c r } := by
  -- no thread is in the handler of an earlier request
  have hinited : ∀ k d id, Function.update x.job i (.got c r) k ≠ .inited d id := by
    intro k d id hk
    rcases eq_or_ne k i with rfl | hne
    · cases (Function.update_self ..).symm.trans hk
    · rw [Function.update_of_ne hne] at hk
      exact absurd hk (ne_of_alone halone hne (by simp [brings]))
  have hgot : ∀ k d, Function.update x.job i (.got c r) k = .got d .wait → d = c ∧ r = .wait := by
    intro k d hk
    rcases eq_or_ne k i with rfl | hne
    · rw [Function.update_self] at hk
      cases hk
      exact ⟨rfl, rfl⟩
    · rw [Function.update_of_ne hne] at hk
      exact absurd hk (ne_of_alone halone hne (by simp [brings]))
  have hfits := h.client c
  by_cases hw : r = .wait
  · subst hw
    obtain ⟨rfl, hpass⟩ := hfits.wait hc
    -- the others are newcomers, so they do not wait
    have hother : ∀ d, d ≠ c → (x.g.client d).Newcomer := by
      intro d hd
      simpa only [Stage.Fits, hd, if_false] using h.client d
    refine ⟨.passed, fun d => ?_, ?_, fun k d id hk => absurd hk (hinited k d id),
      fun _ => ⟨(h.complete (by simp)).1, fun k d id hk => absurd hk (hinited k d id)⟩,
      fun k d hk e he => ?_⟩
    · change _ ∨ TokenClient.Passing (Function.update x.g.client c _ d)
      rcases eq_or_ne d c with rfl | hne
      · rw [Function.update_self]
        exact .inr hpass
      · left
        change TokenClient.Newcomer (Function.update x.g.client c _ d)
        rw [Function.update_of_ne hne]
        exact hother d hne
    · simp [TokenShared.receive, TokenRequest.asksToken]
    · rw [(hgot k d hk).1]
      by_contra hne
      have hsame : (x.g.receive c .wait).client e = x.g.client e := Function.update_of_ne hne ..
      rw [hsame, (hother e hne).not_waits] at he
      cases he
  · refine ⟨st, fits_update h.client (hfits.receive hc hw), ?_,
      fun k d id hk => absurd hk (hinited k d id),
      fun hst => ⟨(h.complete hst).1, fun k d id hk => absurd hk (hinited k d id)⟩,
      fun k d hk => absurd (hgot k d hk).2 hw⟩
    by_cases hs : r = .sendWait
    · subst hs
      simp [hfits.sendWait hc, TokenShared.receive, TokenRequest.asksToken]
    · have hno : r.asksToken = false := by cases r <;> first | rfl | contradiction
      simpa only [TokenShared.receive, hno, Bool.false_eq_true, if_false] using h.received

/-- `initial_client`: the id of the handler is the last one that has been given out. -/
theorem init (h : Told st x) (halone : ∀ k, k ≠ i → (x.job k).brings = none) :
    Told st { x with
      job := Function.update x.job i (.inited c x.g.clientNew)
      slot := Function.update x.slot i sl
      used := Function.update x.used sl true
      g := x.g.initialClient } := by
  have hjob : ∀ k d id, Function.update x.job i (.inited c x.g.clientNew) k = .inited d id →
      id = x.g.clientNew := by
    intro k d id hk
    rcases eq_or_ne k i with rfl | hne
    · rw [Function.update_self] at hk
      exact (TokenJob.inited.inj hk).2.symm
    · rw [Function.update_of_ne hne] at hk
      exact absurd hk (ne_of_alone halone hne (by simp [brings]))
  refine ⟨h.client, h.received, fun k d id hk => ?_, fun hst => ?_, fun k d hk => ?_⟩
  · rw [hjob k d id hk]
    rfl
  · have hn := (h.complete hst).1
    exact ⟨hn.trans (Nat.le_succ _), fun k d id hk => (hjob k d id hk) ▸ hn⟩
  · rcases eq_or_ne k i with rfl | hne
    · cases (Function.update_self ..).symm.trans hk
    · exact h.only k d ((Function.update_of_ne hne ..).symm.trans hk)

/-- **The last client has come.** When the barrier opens, nobody has been told anything. -/
theorem before (h : Told st x) {id : ℕ} (hj : x.job i = .inited c id)
    (hb : x.g.clientNew = n) : st = .before := by
  by_contra hst
  have hid := (h.complete hst).2 i c id hj
  have hnew := h.numbered i c id hj
  omega

/-- The answer to the first client, which is told to send `WAIT`. If the slot were empty, nobody
would be. -/
theorem opens (h : Told .before x) (hhot : ∀ k, (x.job k).brings = none)
    (hn : n ≤ x.g.clientNew) :
    ∃ st, Told st { x with g := x.g.send sl (some (k, 1)) } := by
  rcases hcap : x.g.cap sl with _ | c
  · rw [TokenShared.send_of_none hcap]
    exact ⟨.before, h⟩
  rw [TokenShared.send_of_cap hcap]
  have hjob : ∀ k j, j.brings ≠ none → x.job k ≠ j := by
    intro k j hj he
    exact hj (he ▸ hhot k)
  have hreceived : x.g.received = [] := by
    by_contra hr
    cases h.received.mpr hr
  refine ⟨.opened c, fun d => ?_, ?_, fun k d id hk => absurd hk (hjob _ _ (by simp [brings])),
    fun _ => ⟨hn, fun k d id hk => absurd hk (hjob _ _ (by simp [brings]))⟩,
    fun k d hk => absurd hk (hjob _ _ (by simp [brings]))⟩
  · have hd : (x.g.client d).Newcomer := h.client d
    change Stage.Fits _ d (Function.update x.g.client c _ d)
    simp only [Stage.Fits]
    split
    · rename_i hdc
      subst hdc
      rw [Function.update_self]
      exact hd.opens
    · rename_i hdc
      rwa [Function.update_of_ne hdc]
  · simp [TokenShared.setClient, hreceived]

/-- The answers to the others, who are told that they may go on. -/
theorem joins (h : Told .passed x)
    (hc : ∀ c, x.g.cap sl = some c → (x.g.client c).phase = .served .init) :
    Told .passed { x with g := x.g.send sl (some (k, 0)) } := by
  rcases hcap : x.g.cap sl with _ | c
  · rwa [TokenShared.send_of_none hcap]
  rw [TokenShared.send_of_cap hcap]
  have hnew := (h.client c).newcomer (hc c hcap)
  refine h.keep (fits_update h.client (.inr hnew.joins)) rfl rfl (fun _ _ => rfl) fun d hd => ?_
  exact waits_update (by simp) hd

/-- The answer to a client with the token, which is told nothing new. -/
theorem reply (h : Told st x) (hcap : x.g.cap sl = some c) (hw : (x.g.client c).waits = true) :
    Told st { x with job := Function.update x.job i .free, g := x.g.send sl none } := by
  rw [TokenShared.send_of_cap hcap]
  obtain ⟨rfl, hpass⟩ := (h.client c).passed hw
  refine h.keep (fits_update h.client (.inr hpass.answer)) rfl rfl
    (fun k hk => brings_update rfl hk) fun d hd => ?_
  exact waits_update (by simp) hd

end Told

/-! ## All steps -/

/-- **What is kept at the desk**: where the capabilities are, and what the clients have been
told. -/
structure Inv (x : TokenDesk n) : Prop where
  caps : Caps x
  told : ∃ st, Told st x

/-- What a step does to the two histories when a thread owes an answer to the first client before
and to the second one after it. -/
inductive Books (g g' : TokenShared n) : Option (Fin n) → Option (Fin n) → Prop where
  | same {o : Option (Fin n)} (hr : g'.received = g.received) (ha : g'.answered = g.answered) :
    Books g g' o o
  | asked {c : Fin n} (hr : g'.received = g.received ++ [c]) (ha : g'.answered = g.answered) :
    Books g g' none (some c)
  | answered {c : Fin n} (hr : g'.received = g.received) (ha : g'.answered = g.answered ++ [c]) :
    Books g g' (some c) none

/-- The answer to an `INIT` is none to a request for the token, so the histories stay the same. -/
theorem send_init_history {g : TokenShared n}
    (hc : ∀ c, g.cap sl = some c → (g.client c).phase = .served .init) :
    (g.send sl m).received = g.received ∧ (g.send sl m).answered = g.answered := by
  rcases hcap : g.cap sl with _ | c
  · rw [TokenShared.send_of_none hcap]
    exact ⟨rfl, rfl⟩
  · rw [TokenShared.send_of_cap hcap]
    have hw : (g.client c).waits = false := TokenClient.waits_of_served (hc c hcap)
    simp [TokenShared.setClient, hw]

namespace Inv

/-- While `WAIT` is handled, no thread has a request for the token in its slot. -/
theorem no_holder (h : Inv x) (hj : x.job i = .got c .wait) (d : Fin n) : x.job k ≠ .holding d := by
  intro hk
  obtain ⟨st, ht⟩ := h.told
  obtain ⟨hcap, hw⟩ := h.caps.holder k d hk
  obtain rfl := ht.only i c hj d hw
  exact (h.caps.caller i d .wait (by rw [hj]; rfl)).2.2 _ hcap

/-- **`process_message_multicast`** answers clients that wait for the answer to `INIT`, and no
others. -/
theorem multicast (h : Inv x) (hj : x.job i = .got c .wait) :
    Inv { x with g := x.g.processMessageMulticast } ∧
      x.g.processMessageMulticast.received = x.g.received ∧
      x.g.processMessageMulticast.answered = x.g.answered := by
  obtain ⟨st, ht⟩ := h.told
  have hw : (x.g.client c).waits = true :=
    TokenClient.waits_of_served (h.caps.caller i c .wait (by rw [hj]; rfl)).2.1
  obtain ⟨rfl, -⟩ := (ht.client c).passed hw
  -- one answer after the other; the jobs do not change, so every capability is that of an `INIT`
  let P : TokenShared n → Prop := fun g => Caps { x with g := g } ∧ Told .passed { x with g := g } ∧
    g.received = x.g.received ∧ g.answered = x.g.answered
  have hall : P x.g.processMessageMulticast := by
    refine multicast_induction ⟨h.caps, ht, rfl, rfl⟩ ?_
    rintro g k ⟨hcaps, htold, hr, ha⟩
    have hinit : ∀ d, g.cap (g.replyEps k) = some d → (g.client d).phase = .served .init := by
      intro d hd
      refine (hcaps.caps _ d hd).resolve_right ?_
      rintro ⟨l, -, hl⟩
      exact h.no_holder hj d hl
    obtain ⟨hr', ha'⟩ := send_init_history (m := some (k, 0)) hinit
    exact ⟨hcaps.announce hinit, htold.joins hinit, hr'.trans hr, ha'.trans ha⟩
  exact ⟨⟨hall.1, _, hall.2.1⟩, hall.2.2⟩

/-- `vka_cnode_saveCaller` of a request for the token, which the thread has from now on. -/
theorem save (h : Inv x) (hi : x.live i) (hj : x.job i = .got c r) (hr : r.asksToken = true)
    (halone : ∀ k, k ≠ i → (x.job k).brings = none) :
    Inv { x with
      job := Function.update x.job i (.holding c)
      g := x.g.saveCaller (x.slot i) } := by
  obtain ⟨st, ht⟩ := h.told
  have hb : (x.job i).brings = some (c, r) := by
    rw [hj]
    rfl
  exact ⟨h.caps.save hi hb halone (.inr ⟨hr, rfl⟩), st,
    ht.keep ht.client rfl rfl (fun k hk => Told.brings_update rfl hk) fun _ hd => hd⟩

/-- **The end of the `INIT` handler.** If the barrier opens, one client is told to send `WAIT`. -/
theorem register {id : ℕ} (h : Inv x) (hi : x.live i) (hj : x.job i = .inited c id)
    (halone : ∀ k, k ≠ i → (x.job k).brings = none) :
    Inv { x with
      job := Function.update x.job i .free
      g := (x.g.saveCaller (x.slot i)).registerClient id (x.slot i) } ∧
      ((x.g.saveCaller (x.slot i)).registerClient id (x.slot i)).received = x.g.received ∧
      ((x.g.saveCaller (x.slot i)).registerClient id (x.slot i)).answered = x.g.answered := by
  obtain ⟨st, ht⟩ := h.told
  have hb : (x.job i).brings = some (c, .init) := by
    rw [hj]
    rfl
  have hsaved := h.caps.save hi hb halone (.inl ⟨rfl, rfl⟩)
  have htold : Told st { x with
      job := Function.update x.job i .free
      g := { x.g.saveCaller (x.slot i) with
        replyEps := Function.update x.g.replyEps id (x.slot i) } } :=
    ht.keep ht.client rfl rfl (fun k hk => Told.brings_update rfl hk) fun _ hd => hd
  have hcaps : Caps { x with
      job := Function.update x.job i .free
      g := { x.g.saveCaller (x.slot i) with
        replyEps := Function.update x.g.replyEps id (x.slot i) } } :=
    ⟨hsaved.used, hsaved.inj, hsaved.idle, hsaved.capInj, hsaved.caps, hsaved.holder, hsaved.caller,
      hsaved.waiting⟩
  simp only [TokenShared.registerClient]
  split
  · rename_i hbar
    have hn : n = x.g.clientNew := beq_iff_eq.mp hbar
    obtain rfl := ht.before hj hn.symm
    have hinit : ∀ sl d, (x.g.saveCaller (x.slot i)).cap sl = some d →
        (x.g.client d).phase = .served .init := by
      intro sl d hd
      refine (hcaps.caps sl d hd).resolve_right ?_
      rintro ⟨l, -, hl⟩
      cases ((ht.client d).passed (hcaps.holder l d hl).2).1
    have hhot : ∀ k, (Function.update x.job i .free k).brings = none := by
      intro k
      rcases eq_or_ne k i with rfl | hne
      · rw [Function.update_self]
        rfl
      · rw [Function.update_of_ne hne]
        exact halone k hne
    exact ⟨⟨hcaps.announce (hinit _), htold.opens hhot hn.le⟩, send_init_history (hinit _)⟩
  · exact ⟨⟨hcaps, st, htold⟩, rfl, rfl⟩

theorem recv (h : Inv x) (hi : x.live i) (hj : x.job i = .free)
    (halone : ∀ k, k ≠ i → (x.job k).brings = none) (hc : (x.g.client c).phase = .asked r) :
    Inv { x with job := Function.update x.job i (.got c r), g := x.g.receive c r } := by
  obtain ⟨st, ht⟩ := h.told
  exact ⟨h.caps.recv hi hj halone hc, ht.recv halone hc⟩

theorem reply (h : Inv x) (hj : x.job i = .holding c) :
    Inv { x with job := Function.update x.job i .free, g := x.g.send (x.slot i) none } := by
  obtain ⟨st, ht⟩ := h.told
  obtain ⟨hcap, hw⟩ := h.caps.holder i c hj
  exact ⟨h.caps.reply hj, st, ht.reply hcap hw⟩

/-- What a thread serves keeps the invariant, with no other thread in between. -/
theorem serves {j j' : TokenJob n} {g : TokenShared n} (h : Inv x) (hi : x.live i)
    (hj : x.job i = j) (halone : ∀ k, k ≠ i → (x.job k).brings = none)
    (hs : Serves x.g (x.slot i) j j' g) :
    Inv { x with job := Function.update x.job i j', g := g } := by
  cases hs with
  | recv hc => exact h.recv hi hj halone hc
  | register => exact (h.register hi hj halone).1
  | immd =>
    obtain ⟨st, ht⟩ := h.told
    refine ⟨h.caps.drop hi (by rw [hj]; rfl) rfl, st, ?_⟩
    exact ht.keep ht.client rfl rfl (fun k hk => Told.brings_update rfl hk) fun _ hd => hd
  | wait => exact (h.multicast hj).1.save hi hj rfl halone
  | sendWait => exact h.save hi hj rfl halone
  | turn =>
    rw [← hj, Function.update_eq_self]
    exact h
  | reply => exact h.reply hj

/-- **The books.** A request is entered when a thread begins to owe an answer, and an answer when it
ceases to. -/
theorem books {j j' : TokenJob n} {g : TokenShared n} (h : Inv x) (hi : x.live i)
    (hj : x.job i = j) (halone : ∀ k, k ≠ i → (x.job k).brings = none)
    (hs : Serves x.g (x.slot i) j j' g) : Books x.g g j.owes j'.owes := by
  cases hs with
  | @recv c r hc =>
    simp only [owes, TokenShared.receive]
    split
    · exact .asked rfl rfl
    · exact .same rfl rfl
  | register =>
    obtain ⟨-, hr, ha⟩ := h.register hi hj halone
    exact .same hr ha
  | immd => exact .same rfl rfl
  | wait =>
    obtain ⟨-, hr, ha⟩ := h.multicast hj
    exact .same hr ha
  | sendWait => exact .same rfl rfl
  | turn => exact .same rfl rfl
  | reply =>
    obtain ⟨hcap, hw⟩ := h.caps.holder i _ hj
    rw [TokenShared.send_of_cap hcap]
    exact .answered rfl (by simp [hw])

/-- A thread exits with the request `TMNT`, and its client is gone. -/
theorem leaves (h : Inv x) (hi : x.live i) (hj : x.job i = .got c .tmnt)
    (halone : ∀ k, k ≠ i → (x.job k).brings = none) (hlive : ∀ j, x'.live j ↔ x.live j ∧ j ≠ i)
    (he : x' = { x with
      live := x'.live
      job := Function.update x.job i .free
      g := x.g.terminate c }) : Inv x' := by
  obtain ⟨st, ht⟩ := h.told
  have hb : (x.job i).brings = some (c, .tmnt) := by
    rw [hj]
    rfl
  obtain ⟨-, hphase, hcap⟩ := h.caps.caller i c .tmnt hb
  -- the request is dropped, then the client is gone, then the thread
  have hno : ∀ k, ¬ (Function.update x.job i .free k).About c := by
    intro k hk
    rcases eq_or_ne k i with rfl | hne
    · rw [Function.update_self] at hk
      rcases hk with hk | ⟨_, hk⟩ <;> cases hk
    · rw [Function.update_of_ne hne] at hk
      rcases hk with hk | ⟨r, hk⟩
      · exact hcap _ (h.caps.holder k c hk).1
      · cases (halone k hne).symm.trans hk
  have hcaps := (h.caps.drop hi hb rfl).setClient (y := { x.g.client c with phase := .gone })
    hcap hno rfl
  rw [he]
  refine ⟨⟨fun k hk => hcaps.used k ((hlive k).mp hk).1,
    fun k l hk hl => hcaps.inj k l ((hlive k).mp hk).1 ((hlive l).mp hl).1, fun k hk => ?_,
    hcaps.capInj, hcaps.caps, hcaps.holder, hcaps.caller, hcaps.waiting⟩, st, ?_⟩
  · rcases eq_or_ne k i with rfl | hne
    · exact Function.update_self ..
    · exact hcaps.idle k fun hk' => hk ((hlive k).mpr ⟨hk', hne⟩)
  · refine ht.keep (Told.fits_update ht.client ((ht.client c).leave hphase)) rfl rfl
      (fun k hk => Told.brings_update rfl hk) fun d hd => ?_
    exact Told.waits_update (by simp [TokenClient.waits]) hd

/-- **Every step at the desk keeps the invariant**, those of thread 0 and of the clients
included. -/
theorem next (h : Inv x) (hs : Handles x x') : Inv x' := by
  obtain ⟨st, ht⟩ := h.told
  cases hs with
  | main hlive hjob hslot hused hg =>
    obtain ⟨live, job, slot, used, g⟩ := x'
    subst hlive hjob hslot hg
    refine ⟨⟨fun i hi => hused _ (h.caps.used i hi), h.caps.inj, h.caps.idle, h.caps.capInj,
      h.caps.caps, h.caps.holder, h.caps.caller, h.caps.waiting⟩, st, ?_⟩
    exact ⟨ht.client, ht.received, ht.numbered, ht.complete, ht.only⟩
  | hire hnew hfree hlive hjob hslot hused hg =>
    have hfresh : ∀ c, x.job _ ≠ .holding c := fun c hc => by
      cases (h.caps.idle _ hnew).symm.trans hc
    refine ⟨h.caps.newSlot hfresh hfree hlive hjob hslot hused hg, st, ?_⟩
    refine ht.keep ?_ (by rw [hg]) (by rw [hg]) (fun _ _ => by rw [hjob]) fun d hd => ?_
    · rw [hg]
      exact ht.client
    · rwa [hg] at hd
  | serve hi hj halone hserves he =>
    rw [he]
    exact h.serves hi hj halone hserves
  | @init i sl c hi hj halone hfree he =>
    rw [he]
    have hslot : Caps { x with
        slot := Function.update x.slot i sl
        used := Function.update x.used sl true } := by
      refine h.caps.newSlot (i := i) (fun d hd => ?_) hfree (fun k => ?_) rfl rfl rfl rfl
      · cases hj.symm.trans hd
      · exact (or_iff_right_of_imp fun he => he ▸ hi).symm
    have hcaps := hslot.goOn (i := i) (j := .inited c x.g.clientNew) (by rw [hj]; rfl) rfl
    refine ⟨?_, st, ht.init halone⟩
    exact ⟨hcaps.used, hcaps.inj, hcaps.idle, hcaps.capInj, hcaps.caps, hcaps.holder, hcaps.caller,
      hcaps.waiting⟩
  | tmnt hi hj halone hlive he => exact h.leaves hi hj halone hlive he
  | ask hc he =>
    rw [he]
    have hnone := TokenClient.not_waits_of_may hc
    refine ⟨h.caps.setClient (h.caps.no_cap hnone) (h.caps.no_job hnone) rfl, st, ?_⟩
    refine ht.keep (Told.fits_update ht.client ((ht.client _).ask hc)) rfl rfl (fun _ _ => rfl)
      fun d hd => ?_
    exact Told.waits_update (by simp) hd

end Inv

/-! ## All runs -/

variable {a : AMach (TokenPc n) (TokenShared n)} {mach : Mach (TokenPc n) (TokenShared n)}

theorem Inv.initial (h : a.Init T.program) : Inv (desk a) := by
  have hg : a.g = .initialClientPool n := h.g
  have hno : ∀ k, ¬ Live a k := fun k hk => hk.2 (h.place k hk.1)
  have hjob : ∀ k, (desk a).job k = .free := fun k => desk_job_of_not (hno k)
  have hg' : (desk a).g = .initialClientPool n := hg
  refine ⟨⟨fun k hk => absurd hk (hno k), fun k _ hk => absurd hk (hno k), fun k _ => hjob k, ?_,
    ?_, fun k c hk => ?_, fun k c r hk => ?_, fun c hc => ?_⟩, .before, fun c => ?_, ?_,
    fun k c id hk => ?_, fun hst => absurd rfl hst, fun k c hk => ?_⟩
  · simp [hg', TokenShared.initialClientPool]
  · simp [hg', TokenShared.initialClientPool]
  · cases (hjob k).symm.trans hk
  · rw [hjob k] at hk
    cases hk
  · rw [hg'] at hc
    cases hc
  · rw [hg']
    exact ⟨rfl, rfl, .inl rfl⟩
  · simp [hg', TokenShared.initialClientPool]
  · cases (hjob k).symm.trans hk
  · cases (hjob k).symm.trans hk

/-- What is kept at the desk holds in every state of every run. -/
theorem Tracks.inv (hm : Reach T.runs mach) :
    ∃ a, Tracks T mach a ∧ Undisturbed a ∧ Inv (desk a) :=
  Tracks.induction (Q := fun a => Undisturbed a ∧ Inv (desk a))
    (fun _ ha => ⟨.initial ha, .initial ha⟩)
    (fun _ _ _ _ h hs => ⟨hs.undisturbed h.1, h.2.next (hs.handles h.1)⟩) hm

/-- **Requests and answers**, in a state of a run of the token server. -/
structure TokenRouting (mach : Mach (TokenPc n) (TokenShared n)) : Prop where
  /-- a request that has been received is that of the caller, whose capability is in no slot -/
  caller : ∀ c r, mach.cpu = .user (.got c r) → mach.g.caller = some c ∧
    (mach.g.client c).phase = .served r ∧ ∀ sl, mach.g.cap sl ≠ some c
  /-- an answer goes through the slot of the running thread to the client of this thread -/
  reply : ∀ c, mach.cpu = .user (.reply c) →
    mach.g.cap mach.st.view.slot = some c ∧ (mach.g.client c).waits = true
  /-- a capability is in one slot only -/
  capInj : ∀ sl sl' c, mach.g.cap sl = some c → mach.g.cap sl' = some c → sl = sl'
  /-- the capability of a client that waits for the token is not lost -/
  kept : ∀ c, (mach.g.client c).waits = true →
    mach.g.caller = some c ∨ ∃ sl, mach.g.cap sl = some c
  /-- nobody is answered before all clients have come -/
  told : ∀ c, (mach.g.client c).told ≠ none → n ≤ mach.g.clientNew
  /-- the first request for the token is `WAIT`, -/
  wait : ∀ c, (mach.g.client c).phase = .asked .wait → mach.g.received = []
  /-- and the others are `SEND_WAIT` -/
  sendWait : ∀ c, (mach.g.client c).phase = .asked .sendWait → mach.g.received ≠ []

/-- The first request for the token is `WAIT`, and all others are `SEND_WAIT`. -/
theorem Inv.first {req : TokenRequest} (h : Inv x)
    (hc : (x.g.client c).phase = .asked req) (hreq : req.asksToken = true) :
    req = .wait ∧ x.g.received = [] ∨ req = .sendWait ∧ x.g.received ≠ [] := by
  obtain ⟨st, ht⟩ := h.told
  cases req with
  | wait =>
    refine .inl ⟨rfl, ?_⟩
    by_contra hr
    have hst := ((ht.client c).wait hc).1
    rw [ht.received.mpr hr] at hst
    cases hst
  | sendWait => exact .inr ⟨rfl, ht.received.mp ((ht.client c).sendWait hc)⟩
  | init | tmnt | immd => cases hreq

/-- Nobody has been told anything before all clients have come. -/
theorem Inv.complete (h : Inv x) (hc : (x.g.client c).told ≠ none) : n ≤ x.g.clientNew := by
  obtain ⟨st, ht⟩ := h.told
  refine (ht.complete ?_).1
  rintro rfl
  exact hc (ht.client c).1

/-- **The token server keeps its requests and answers apart.** In every run, in either build, with
any number of clients and threads: a thread answers the client whose request it has, and no client
that waits for the token loses its reply capability. -/
theorem token_routing (hm : Reach T.runs mach) : TokenRouting mach := by
  obtain ⟨a, ht, -, hinv⟩ := Tracks.inv hm
  have hg : mach.g = (desk a).g := ht.sim.g
  refine ⟨fun c r hcpu => ?_, fun c hcpu => ?_, ?_, fun c hc => ?_, fun c hc => ?_, fun c hc => ?_,
    fun c hc => ?_⟩
  · -- with `sync_prim` assigned there is something to do
    have hnext : T.next none mach.st.view (.got c r) { mach.g with syncPrim := some 0 } ≠ none := by
      cases r <;> simp [next, processMessage]
    obtain ⟨i, hi, h0, hf⟩ := ht.running_of_loop hcpu trivial hnext
    rw [hg]
    refine hinv.caps.caller i c r ?_
    rw [desk_job (live_of_running hi h0), hf]
    rfl
  · have hnext : T.next none mach.st.view (.reply c) mach.g ≠ none := by simp [next]
    obtain ⟨i, hi, h0, hf⟩ := ht.running_of_loop hcpu trivial hnext
    rw [hg, ht.sim.view hi]
    refine hinv.caps.holder i c ?_
    rw [desk_job (live_of_running hi h0), hf]
    rfl
  · rw [hg]
    exact hinv.caps.capInj
  · rw [hg] at hc ⊢
    obtain ⟨i, hi | ⟨r, hi⟩⟩ := hinv.caps.waiting c hc
    · exact .inr ⟨_, (hinv.caps.holder i c hi).1⟩
    · exact .inl (hinv.caps.caller i c r hi).1
  · rw [hg] at hc ⊢
    exact hinv.complete hc
  · rw [hg] at hc ⊢
    rcases hinv.first hc rfl with ⟨-, hr⟩ | ⟨he, -⟩
    · exact hr
    · cases he
  · rw [hg] at hc ⊢
    rcases hinv.first hc rfl with ⟨he, -⟩ | ⟨-, hr⟩
    · cases he
    · exact hr

/-- The server is about to answer client 0, and client 1 waits. -/
theorem token_routing_answering :
    ∃ mach, Reach (TokenServer.runs (n := 2) ⟨.lock, 2⟩) mach ∧ mach.cpu = .user (.reply 0) ∧
      (mach.g.client 1).waits = true ∧ TokenRouting mach := by
  obtain ⟨mach, hm, hcpu, hw⟩ := Reach.exists_of_exec (TokenServer.step (n := 2) ⟨.lock, 2⟩)
    (fun _ _ _ h => h) (.init (boot_init _)) twoClients.dropLast
    (fun mach => mach.cpu = .user (.reply 0) ∧ (mach.g.client 1).waits = true) (by decide +kernel)
  exact ⟨mach, hm, hcpu, hw, token_routing hm⟩

end TokenServer

end GreenLib
