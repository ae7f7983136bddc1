import GreenLib.TokenLock

/-!
# The token as a semaphore

The token server in the build `THREAD_SEMAPHORE`. `SEND_WAIT` is `thread_semaphore_V` followed by
`thread_semaphore_P`. Between two requests exactly one client waits, as with the lock, but it is not
the one that asked last. The first `SEND_WAIT` wakes the thread of the client that sent `WAIT`, and
the thread that received it goes to the end of the ready queue, between its two calls. The server
now receives the next `SEND_WAIT` in the woken thread. Nobody sleeps on the semaphore, so `V`
returns, `P` takes the token that `V` has just given, and the client gets its own token back. The
client of the first `SEND_WAIT` waits until some thread exits (`token_kept`).
-/

namespace GreenLib

namespace TokenServer

open Sched TokenJob

variable {n : ℕ} {T : TokenServer n} {a a' b : AMach (TokenPc n) (TokenShared n)} {i j k : ℕ}
  {c d w : Fin n} {p : Addr} {fr : Frame (TokenPc n)} {r : Req Addr}

/-! ## The calls -/

/-- `SEND_WAIT` in this build: `thread_semaphore_V` comes first, and the thread that it wakes runs
at once. -/
theorem Acts.of_post (hb : T.build = .semaphore) (hf : a.frame i = .user (.got c .sendWait))
    (hp : a.g.syncPrim = some p) (hact : Acts T a i b fr r) :
    r = .wakeup p ∧ fr = .user (.posted c) ∧ b.count p = wrap32 (a.count p + 1) := by
  cases hact with
  | user hf' hd =>
    obtain rfl := Frame.user.inj (hf.symm.trans hf')
    cases hd
  | enter hf' he =>
    obtain rfl := Frame.user.inj (hf.symm.trans hf')
    cases he
  | post _ hf' hp' _ hcount =>
    cases hf.symm.trans hf'
    obtain rfl := Option.some.inj (hp.symm.trans hp')
    exact ⟨rfl, rfl, hcount⟩
  | pass hb' => cases hb.symm.trans hb'
  | alloc hf' | passed _ hf' => cases hf.symm.trans hf'
  | spin hf' | sleep hf' | take hf' => exact absurd (hf'.symm.trans hf) waitFrame_ne_user

/-- Between the two calls of `SEND_WAIT`: `thread_semaphore_P` follows, and the count has not
changed. -/
theorem Acts.of_posted (hf : a.frame i = .user (.posted c)) (hp : a.g.syncPrim = some p)
    (hact : Acts T a i b fr r) : r = .stay ∧ fr = T.waitFrame false p c ∧ b.count = a.count := by
  cases hact with
  | user hf' hd =>
    obtain rfl := Frame.user.inj (hf.symm.trans hf')
    cases hd
  | enter hf' he hp' hk =>
    obtain rfl := Frame.user.inj (hf.symm.trans hf')
    obtain rfl := Option.some.inj (hp.symm.trans hp')
    cases he
    exact ⟨rfl, rfl, hk.count⟩
  | alloc hf' | pass _ hf' | post _ hf' | passed _ hf' => cases hf.symm.trans hf'
  | spin hf' | sleep hf' | take hf' => exact absurd (hf'.symm.trans hf) waitFrame_ne_user

/-- One token is there, -/
theorem free_of_one (hb : T.build = .semaphore) (hc : a.count p = 1) : T.Free a p := by
  rw [Free, hb]
  change 0 < a.count p
  rw [hc]
  exact one_pos

/-- and then none. -/
theorem Takes.count_eq_zero (h : T.Takes a b p) (hb : T.build = .semaphore) (hc : a.count p = 1) :
    b.count p = 0 := by
  rw [Takes, hb] at h
  change b.count p = wrap32 (a.count p - 1) at h
  rw [h, hc]
  rfl

/-! ## Modes -/

/-- **Where the token is.** As long as no thread has exited, the histories are known as well. -/
inductive SemMode (T : TokenServer n) (a : AMach (TokenPc n) (TokenShared n)) (p : Addr) :
    Prop where
  /-- a thread sleeps on the semaphore -/
  | resting {j : ℕ} {w : Fin n} (hw : a.sched.waiting p = [j]) (hj : Live a j)
    (hfj : a.frame j = T.waitFrame true p w) (hc : a.count p = 0) (hidle : Idle a)
    (h0 : a.sched.running ≠ some 0) (hline : Line a [j]) (hr : a.g.received ≠ [])
    (hearly : a.g.terminateNum = 0 → a.g.received = [w] ∧ a.g.answered = [])
  /-- the running thread has received `SEND_WAIT` -/
  | giving {i j : ℕ} {w d : Fin n} (hw : a.sched.waiting p = [j]) (hj : Live a j)
    (hfj : a.frame j = T.waitFrame true p w) (hc : a.count p = 0) (hi : a.sched.running = some i)
    (h0 : i ≠ 0) (hf : a.frame i = .user (.got d .sendWait)) (hline : Line a [j])
    (hr : a.g.received ≠ [])
    (hearly : a.g.terminateNum = 0 → a.g.received = [w, d] ∧ a.g.answered = [])
  /-- the thread that slept runs, the other one is ready behind its `thread_semaphore_V` -/
  | woken {i k : ℕ} {w d : Fin n} (hw : a.sched.waiting p = []) (hk : Live a k) (hki : k ≠ i)
    (hfk : a.frame k = .user (.posted d)) (hi : a.sched.running = some i) (h0 : i ≠ 0)
    (hf : a.frame i = T.waitFrame true p w ∧ a.count p = 1 ∨
      a.frame i = .user (.reply w) ∧ a.count p = 0)
    (hline : Line a [k]) (hr : a.g.received ≠ [])
    (hearly : a.g.terminateNum = 0 → a.g.received = [w, d] ∧ a.g.answered = [])
  /-- a thread is ready behind its `thread_semaphore_V`, the server receives -/
  | aside {k : ℕ} {w : Fin n} (hw : a.sched.waiting p = []) (hk : Live a k)
    (hrun : a.sched.running ≠ some k) (hfk : a.frame k = .user (.posted w)) (hc : a.count p = 0)
    (hidle : Idle a) (h0 : a.sched.running ≠ some 0) (hline : Line a [k]) (hr : a.g.received ≠ [])
    (hearly : a.g.terminateNum = 0 →
      ∃ c₀ rest, a.g.received = c₀ :: w :: rest ∧ a.g.answered = c₀ :: rest)
  /-- so it is, and the running thread handles a `SEND_WAIT` from beginning to end -/
  | passing {i k : ℕ} {w d : Fin n} (hw : a.sched.waiting p = []) (hk : Live a k) (hki : k ≠ i)
    (hfk : a.frame k = .user (.posted w)) (hi : a.sched.running = some i) (h0 : i ≠ 0)
    (hf : a.frame i = .user (.got d .sendWait) ∧ a.count p = 0 ∨
      a.frame i = .user (.posted d) ∧ a.count p = 1 ∨
      a.frame i = T.waitFrame false p d ∧ a.count p = 1 ∨
      a.frame i = .user (.reply d) ∧ a.count p = 0)
    (hline : Line a [k]) (hr : a.g.received ≠ [])
    (hearly : a.g.terminateNum = 0 →
      ∃ c₀ rest, a.g.received = c₀ :: w :: (rest ++ [d]) ∧ a.g.answered = c₀ :: rest)
  /-- after an exit the thread behind `thread_semaphore_V` runs -/
  | back {i : ℕ} {w : Fin n} (hw : a.sched.waiting p = []) (hi : a.sched.running = some i)
    (h0 : i ≠ 0) (hf : a.frame i = .user (.posted w) ∨ a.frame i = T.waitFrame false p w)
    (hc : a.count p = 0) (hline : Line a []) (hr : a.g.received ≠ []) (hlate : a.g.terminateNum ≠ 0)

theorem owesAt_wait {slept : Bool} (hf : a.frame j = T.waitFrame slept p c) :
    owesAt a j = some c := by
  rw [owesAt, hf, ofFrame_waitFrame]
  rfl

theorem owesAt_posted (hf : a.frame k = .user (.posted c)) : owesAt a k = some c := by
  rw [owesAt, hf]
  rfl

namespace SemMode

/-- A client makes a call, which changes nothing about where the token is. -/
theorem congr (h : SemMode T a p) (hs : a'.sched = a.sched) (hframe : a'.frame = a.frame)
    (hcount : a'.count = a.count) (hreceived : a'.g.received = a.g.received)
    (hanswered : a'.g.answered = a.g.answered) (hterm : a'.g.terminateNum = a.g.terminateNum) :
    SemMode T a' p := by
  have hlive : ∀ {k}, Live a k → Live a' k := fun hk => by rwa [Live, hs]
  cases h with
  | resting hw hj hfj hc hidle h0 hline hr hearly =>
    exact .resting (by rwa [hs]) (hlive hj) (by rwa [hframe]) (by rwa [hcount])
      (hidle.congr hs hframe) (by rwa [hs]) (hline.congr hs hframe) (by rwa [hreceived])
      (by rwa [hterm, hreceived, hanswered])
  | giving hw hj hfj hc hi h0 hf hline hr hearly =>
    exact .giving (by rwa [hs]) (hlive hj) (by rwa [hframe]) (by rwa [hcount]) (by rwa [hs]) h0
      (by rwa [hframe]) (hline.congr hs hframe) (by rwa [hreceived])
      (by rwa [hterm, hreceived, hanswered])
  | woken hw hk hki hfk hi h0 hf hline hr hearly =>
    exact .woken (by rwa [hs]) (hlive hk) hki (by rwa [hframe]) (by rwa [hs]) h0
      (by rwa [hframe, hcount]) (hline.congr hs hframe) (by rwa [hreceived])
      (by rwa [hterm, hreceived, hanswered])
  | aside hw hk hrun hfk hc hidle h0 hline hr hearly =>
    exact .aside (by rwa [hs]) (hlive hk) (by rwa [hs]) (by rwa [hframe]) (by rwa [hcount])
      (hidle.congr hs hframe) (by rwa [hs]) (hline.congr hs hframe) (by rwa [hreceived])
      (by rwa [hterm, hreceived, hanswered])
  | passing hw hk hki hfk hi h0 hf hline hr hearly =>
    exact .passing (by rwa [hs]) (hlive hk) hki (by rwa [hframe]) (by rwa [hs]) h0
      (by rwa [hframe, hcount]) (hline.congr hs hframe) (by rwa [hreceived])
      (by rwa [hterm, hreceived, hanswered])
  | back hw hi h0 hf hc hline hr hlate =>
    exact .back (by rwa [hs]) (by rwa [hs]) h0 (by rwa [hframe]) (by rwa [hcount])
      (hline.congr hs hframe) (by rwa [hreceived]) (by rwa [hterm])

/-- Thread 0 does not run, because it has handed over. -/
theorem running_ne_zero (h : SemMode T a p) : a.sched.running ≠ some 0 := by
  cases h with
  | resting _ _ _ _ _ h0 => exact h0
  | giving _ _ _ _ hi h0 => exact running_ne_zero_of hi h0
  | woken _ _ _ _ hi h0 => exact running_ne_zero_of hi h0
  | aside _ _ _ _ _ _ h0 => exact h0
  | passing _ _ _ _ hi h0 => exact running_ne_zero_of hi h0
  | back _ hi h0 => exact running_ne_zero_of hi h0

/-- A thread receives, while one sleeps on the semaphore. It may receive a `SEND_WAIT`. -/
theorem resting_act (hK : Known T a) (hw : a.sched.waiting p = [j]) (hj : Live a j)
    (hfj : a.frame j = T.waitFrame true p w) (hc : a.count p = 0) (hidle : Idle a)
    (hline : Line a [j]) (hr : a.g.received ≠ [])
    (hearly : a.g.terminateNum = 0 → a.g.received = [w] ∧ a.g.answered = [])
    (hi : a.sched.running = some i) (h0 : i ≠ 0) (hact : Acts T a i a' fr r)
    (hs : Step a.sched i r a'.sched) (hframe : a'.frame = Function.update a.frame i fr) :
    SemMode T a' p := by
  obtain ⟨rfl, -, hcount, hans, hcase⟩ := hact.of_idle hK.undisturbed hK.inv hi h0 (hidle i hi h0)
  have hji := ne_of_waiting hw hi
  have hw' : a'.sched.waiting p = [j] := by rw [hs.stay_eq, hw]
  have hi' : a'.sched.running = some i := by rw [hs.stay_eq, hi]
  have hself : a'.frame i = fr := by rw [hframe, Function.update_self]
  have hfj' : a'.frame j = T.waitFrame true p w := by rw [hframe, Function.update_of_ne hji, hfj]
  have hc' : a'.count p = 0 := by rw [hcount, hc]
  rcases hcase with ⟨ho, hrec⟩ | ⟨d, req, rfl, hreq, hphase, hrec⟩
  · obtain ⟨hidle', hmain⟩ := Idle.stay hi h0 hs hframe ho
    exact .resting hw' (hj.step hji hi hs) hfj' hc' hidle' hmain (hline.stay hi hs hframe)
      (by rwa [hrec]) (by rwa [hact.terminateNum, hrec, hans])
  · rcases hK.inv.first hphase hreq with ⟨-, hnil⟩ | ⟨rfl, -⟩
    · exact absurd hnil hr
    · refine .giving hw' (hj.step hji hi hs) hfj' hc' hi' h0 hself (hline.stay hi hs hframe)
        (by simp [hrec]) fun ht => ?_
      obtain ⟨h₁, h₂⟩ := hearly (hact.terminateNum.symm.trans ht)
      exact ⟨by rw [hrec, h₁, List.singleton_append], hans.trans h₂⟩

/-- **The first `SEND_WAIT`.** Its thread goes to the end of the ready queue, and the one that slept
runs with a token to take. -/
theorem giving_act (hb : T.build = .semaphore) (hK : Known T a) (hp : a.g.syncPrim = some p)
    (hw : a.sched.waiting p = [j]) (hj : Live a j) (hfj : a.frame j = T.waitFrame true p w)
    (hc : a.count p = 0) (hi : a.sched.running = some i) (h0 : i ≠ 0)
    (hf : a.frame i = .user (.got d .sendWait)) (hline : Line a [j]) (hr : a.g.received ≠ [])
    (hearly : a.g.terminateNum = 0 → a.g.received = [w, d] ∧ a.g.answered = [])
    (hact : Acts T a i a' fr r) (hs : Step a.sched i r a'.sched)
    (hframe : a'.frame = Function.update a.frame i fr) : SemMode T a' p := by
  have hbooks := hact.books hK.undisturbed hK.inv hi h0
  have hterm := hact.terminateNum
  obtain ⟨rfl, rfl, hcount⟩ := hact.of_post hb hf hp
  have hji := ne_of_waiting hw hi
  have hb' := hs.wakeup_cons hw
  have hself : a'.frame i = .user (.posted d) := by rw [hframe, Function.update_self]
  have hfj' : a'.frame j = T.waitFrame true p w := by rw [hframe, Function.update_of_ne hji, hfj]
  have hlive : Live a' i := (live_iff_act hi hs nofun i).mpr (live_of_running hi h0)
  have hline' : Line a' [i] := by
    refine hline.step hi hs (fun k hk => by rw [hframe, Function.update_of_ne hk]) ?_
      fun _ => .inr (by simp)
    intro k hk _
    rw [List.mem_singleton.mp hk]
    exact hb'.running
  have hone : a'.count p = 1 := by
    rw [hcount, hc]
    rfl
  rw [owesAt, hf] at hbooks
  cases hbooks with
  | same hr' ha' =>
    exact .woken (by rw [hb'.waiting, Function.update_self]) hlive hji.symm hself hb'.running hj.1
      (.inl ⟨hfj', hone⟩) hline' (by rwa [hr']) (by rwa [hterm, hr', ha'])

/-- The woken thread takes the token and answers. Then it receives, with the other thread still
ready. -/
theorem woken_act (hb : T.build = .semaphore) (hK : Known T a) (hw : a.sched.waiting p = [])
    (hk : Live a k) (hki : k ≠ i) (hfk : a.frame k = .user (.posted d))
    (hi : a.sched.running = some i) (h0 : i ≠ 0)
    (hf : a.frame i = T.waitFrame true p w ∧ a.count p = 1 ∨
      a.frame i = .user (.reply w) ∧ a.count p = 0)
    (hline : Line a [k]) (hr : a.g.received ≠ [])
    (hearly : a.g.terminateNum = 0 → a.g.received = [w, d] ∧ a.g.answered = [])
    (hact : Acts T a i a' fr r) (hs : Step a.sched i r a'.sched)
    (hframe : a'.frame = Function.update a.frame i fr) : SemMode T a' p := by
  have hbooks := hact.books hK.undisturbed hK.inv hi h0
  have hterm := hact.terminateNum
  have hself : a'.frame i = fr := by rw [hframe, Function.update_self]
  have hfk' : a'.frame k = .user (.posted d) := by rw [hframe, Function.update_of_ne hki, hfk]
  rcases hf with ⟨hf, hone⟩ | ⟨hf, hzero⟩
  · rw [owesAt_wait hf] at hbooks
    rcases hact.of_waiting hf with ⟨hbusy, -⟩ | ⟨-, rfl, rfl, htakes⟩
    · exact absurd (free_of_one hb hone) hbusy.not_free
    · have hcount := htakes.count_eq_zero hb hone
      cases hbooks with
      | same hr' ha' =>
        exact .woken (by rw [hs.stay_eq, hw]) (hk.step hki hi hs) hki hfk' (by rw [hs.stay_eq, hi])
          h0 (.inr ⟨hself, hcount⟩) (hline.stay hi hs hframe) (by rwa [hr'])
          (by rwa [hterm, hr', ha'])
  · obtain ⟨rfl, rfl, -, hcount⟩ := hact.of_reply hf
    obtain ⟨hidle, hmain⟩ := Idle.stay hi h0 hs hframe rfl
    rw [owesAt, hf] at hbooks
    cases hbooks with
    | answered hr' ha' =>
      refine .aside (by rw [hs.stay_eq, hw]) (hk.step hki hi hs) ?_ hfk' (by rw [hcount, hzero])
        hidle hmain (hline.stay hi hs hframe) (by rwa [hr']) fun ht => ?_
      · rw [hs.stay_eq, hi]
        exact fun he => hki (Option.some.inj he).symm
      · obtain ⟨h₁, h₂⟩ := hearly (hterm.symm.trans ht)
        exact ⟨w, [], hr'.trans h₁, by rw [ha', h₂, List.nil_append]⟩

/-- A thread receives, while one is ready behind its `thread_semaphore_V`. -/
theorem aside_act (hK : Known T a) (hw : a.sched.waiting p = []) (hk : Live a k)
    (hrun : a.sched.running ≠ some k) (hfk : a.frame k = .user (.posted w)) (hc : a.count p = 0)
    (hidle : Idle a) (hline : Line a [k]) (hr : a.g.received ≠ [])
    (hearly : a.g.terminateNum = 0 →
      ∃ c₀ rest, a.g.received = c₀ :: w :: rest ∧ a.g.answered = c₀ :: rest)
    (hi : a.sched.running = some i) (h0 : i ≠ 0) (hact : Acts T a i a' fr r)
    (hs : Step a.sched i r a'.sched) (hframe : a'.frame = Function.update a.frame i fr) :
    SemMode T a' p := by
  obtain ⟨rfl, -, hcount, hans, hcase⟩ := hact.of_idle hK.undisturbed hK.inv hi h0 (hidle i hi h0)
  have hki : k ≠ i := by
    rintro rfl
    exact hrun hi
  have hw' : a'.sched.waiting p = [] := by rw [hs.stay_eq, hw]
  have hi' : a'.sched.running = some i := by rw [hs.stay_eq, hi]
  have hself : a'.frame i = fr := by rw [hframe, Function.update_self]
  have hfk' : a'.frame k = .user (.posted w) := by rw [hframe, Function.update_of_ne hki, hfk]
  have hc' : a'.count p = 0 := by rw [hcount, hc]
  rcases hcase with ⟨ho, hrec⟩ | ⟨d, req, rfl, hreq, hphase, hrec⟩
  · obtain ⟨hidle', hmain⟩ := Idle.stay hi h0 hs hframe ho
    exact .aside hw' (hk.step hki hi hs) (by rwa [hs.stay_eq]) hfk' hc' hidle' hmain
      (hline.stay hi hs hframe) (by rwa [hrec]) (by rwa [hact.terminateNum, hrec, hans])
  · rcases hK.inv.first hphase hreq with ⟨-, hnil⟩ | ⟨rfl, -⟩
    · exact absurd hnil hr
    · refine .passing hw' (hk.step hki hi hs) hki hfk' hi' h0 (.inl ⟨hself, hc'⟩)
        (hline.stay hi hs hframe) (by simp [hrec]) fun ht => ?_
      obtain ⟨c₀, rest, h₁, h₂⟩ := hearly (hact.terminateNum.symm.trans ht)
      exact ⟨c₀, rest, by rw [hrec, h₁]; rfl, hans.trans h₂⟩

/-- **A later `SEND_WAIT`.** The client gets its own token back: nobody sleeps, so the thread keeps
the processor from `V` to `P`. -/
theorem passing_act (hb : T.build = .semaphore) (hK : Known T a) (hp : a.g.syncPrim = some p)
    (hw : a.sched.waiting p = []) (hk : Live a k) (hki : k ≠ i)
    (hfk : a.frame k = .user (.posted w)) (hi : a.sched.running = some i) (h0 : i ≠ 0)
    (hf : a.frame i = .user (.got d .sendWait) ∧ a.count p = 0 ∨
      a.frame i = .user (.posted d) ∧ a.count p = 1 ∨
      a.frame i = T.waitFrame false p d ∧ a.count p = 1 ∨
      a.frame i = .user (.reply d) ∧ a.count p = 0)
    (hline : Line a [k]) (hr : a.g.received ≠ [])
    (hearly : a.g.terminateNum = 0 →
      ∃ c₀ rest, a.g.received = c₀ :: w :: (rest ++ [d]) ∧ a.g.answered = c₀ :: rest)
    (hact : Acts T a i a' fr r) (hs : Step a.sched i r a'.sched)
    (hframe : a'.frame = Function.update a.frame i fr) : SemMode T a' p := by
  have hbooks := hact.books hK.undisturbed hK.inv hi h0
  have hterm := hact.terminateNum
  have hself : a'.frame i = fr := by rw [hframe, Function.update_self]
  have hfk' : a'.frame k = .user (.posted w) := by rw [hframe, Function.update_of_ne hki, hfk]
  -- the thread goes on with the request
  have hgoesOn : a'.sched = a.sched → (ofFrame fr).owes = some d → owesAt a i = some d →
      (fr = .user (.posted d) ∧ a'.count p = 1 ∨ fr = T.waitFrame false p d ∧ a'.count p = 1 ∨
        fr = .user (.reply d) ∧ a'.count p = 0) → SemMode T a' p := by
    intro hsched ho ho' hfr
    rw [ho, ho'] at hbooks
    have hstep : Step a.sched i .stay a'.sched := by
      rw [hsched]
      exact .stay
    rw [← hself] at hfr
    cases hbooks with
    | same hr' ha' =>
      exact .passing (by rw [hsched, hw]) (hk.step hki hi hstep) hki hfk' (by rw [hsched, hi]) h0
        (.inr hfr) (hline.stay hi hstep hframe) (by rwa [hr']) (by rwa [hterm, hr', ha'])
  rcases hf with ⟨hf, hc⟩ | ⟨hf, hc⟩ | ⟨hf, hc⟩ | ⟨hf, hc⟩
  · obtain ⟨rfl, rfl, hcount⟩ := hact.of_post hb hf hp
    have hone : a'.count p = 1 := by
      rw [hcount, hc]
      rfl
    exact hgoesOn (hs.wakeup_nil hw) rfl (by rw [owesAt, hf]; rfl) (.inl ⟨rfl, hone⟩)
  · obtain ⟨rfl, rfl, hcount⟩ := hact.of_posted hf hp
    refine hgoesOn hs.stay_eq (by rw [ofFrame_waitFrame]; rfl) (owesAt_posted hf)
      (.inr (.inl ⟨rfl, ?_⟩))
    rw [hcount, hc]
  · rcases hact.of_waiting hf with ⟨hbusy, -⟩ | ⟨-, rfl, rfl, htakes⟩
    · exact absurd (free_of_one hb hc) hbusy.not_free
    · exact hgoesOn hs.stay_eq rfl (owesAt_wait hf)
        (.inr (.inr ⟨rfl, htakes.count_eq_zero hb hc⟩))
  · obtain ⟨rfl, rfl, -, hcount⟩ := hact.of_reply hf
    obtain ⟨hidle, hmain⟩ := Idle.stay hi h0 hs hframe rfl
    rw [owesAt, hf] at hbooks
    cases hbooks with
    | answered hr' ha' =>
      refine .aside (by rw [hs.stay_eq, hw]) (hk.step hki hi hs) ?_ hfk' (by rw [hcount, hc])
        hidle hmain (hline.stay hi hs hframe) (by rwa [hr']) fun ht => ?_
      · rw [hs.stay_eq, hi]
        exact fun he => hki (Option.some.inj he).symm
      · obtain ⟨c₀, rest, h₁, h₂⟩ := hearly (hterm.symm.trans ht)
        exact ⟨c₀, rest ++ [d], hr'.trans h₁, by rw [ha', h₂, List.cons_append]⟩

/-- The thread behind its `thread_semaphore_V` finds no token and sleeps, since others have taken
what it gave. -/
theorem back_act (hb : T.build = .semaphore) (hK : Known T a) (hp : a.g.syncPrim = some p)
    (hw : a.sched.waiting p = []) (hi : a.sched.running = some i) (h0 : i ≠ 0)
    (hf : a.frame i = .user (.posted w) ∨ a.frame i = T.waitFrame false p w) (hc : a.count p = 0)
    (hline : Line a []) (hr : a.g.received ≠ []) (hlate : a.g.terminateNum ≠ 0)
    (hact : Acts T a i a' fr r) (hs : Step a.sched i r a'.sched)
    (hframe : a'.frame = Function.update a.frame i fr) : SemMode T a' p := by
  have hbooks := hact.books hK.undisturbed hK.inv hi h0
  have hterm := hact.terminateNum
  have hself : a'.frame i = fr := by rw [hframe, Function.update_self]
  have howes : owesAt a i = some w := hf.elim owesAt_posted owesAt_wait
  rw [howes] at hbooks
  have hspins : r = .stay → fr = T.waitFrame false p w → a'.count = a.count → SemMode T a' p := by
    rintro rfl rfl hcount
    rw [ofFrame_waitFrame] at hbooks
    cases hbooks with
    | same hr' _ =>
      exact .back (by rw [hs.stay_eq, hw]) (by rw [hs.stay_eq, hi]) h0 (.inr hself)
        (by rw [hcount, hc]) (hline.stay hi hs hframe) (by rwa [hr']) (by rwa [hterm])
  rcases hf with hf | hf
  · obtain ⟨hr', hfr, hcount⟩ := hact.of_posted hf hp
    exact hspins hr' hfr hcount
  · rcases hact.of_waiting hf with ⟨-, -, hcount, ⟨hr', hfr⟩ | ⟨rfl, rfl, hne⟩⟩ | ⟨hfree, -⟩
    · exact hspins hr' hfr hcount
    · obtain ⟨j, tl, hready⟩ := List.exists_cons_of_ne_nil hne
      have hb' := hs.sleep_cons hready
      have hframe' : ∀ k, k ≠ i → a'.frame k = a.frame k := fun k hk => by
        rw [hframe, Function.update_of_ne hk]
      have hw' : a'.sched.waiting p = [i] := by
        rw [hb'.waiting, Function.update_self, hw, List.nil_append]
      obtain ⟨hidle, hzero⟩ := Idle.of_ready hline hK.setUp hi hframe' hb'.running
        (hready ▸ List.mem_cons_self) (by simp)
      rw [ofFrame_waitFrame] at hbooks
      cases hbooks with
      | same hr' _ =>
        exact .resting hw' (live_of_waiting hw' h0) hself (by rw [hcount, hc]) hidle hzero
          (hline.step hi hs hframe' (by simp) fun _ => .inr (by simp)) (by rwa [hr'])
          fun ht => absurd (hterm.symm.trans ht) hlate
    · rw [Free, hb] at hfree
      exact absurd hc (ne_of_gt hfree)

/-- **A thread exits.** It may be the turn of the thread behind its `thread_semaphore_V`. -/
theorem exit (hK : Known T a) (h : SemMode T a p) (hi : a.sched.running = some i)
    (hf : a.frame i = .user (.got c .tmnt)) (hs : Step a.sched i .exit a'.sched)
    (hframe : a'.frame = a.frame) (hk : KeepsAll a a' (a.g.terminate c)) : SemMode T a' p := by
  have hwaits : a'.sched.waiting p = a.sched.waiting p :=
    hs.waiting_of_not_touches (by simp [Req.Touches])
  have hr' : a'.g.received = a.g.received := by
    rw [hk.g]
    rfl
  have hlate : a'.g.terminateNum ≠ 0 := by
    rw [hk.g]
    exact Nat.succ_ne_zero _
  have howes : owesAt a i = none := by
    rw [owesAt, hf]
    rfl
  cases h with
  | resting hw hj hfj hc hidle h0 hline hr hearly =>
    obtain ⟨hidle', h0', hline'⟩ := Idle.exit hline hK.setUp hi hs hframe (not_woken_of_exit hw hs)
    exact .resting (by rw [hwaits, hw]) (hj.step (ne_of_waiting hw hi) hi hs) (by rwa [hframe])
      (by rwa [hk.count]) hidle' h0' hline' (by rwa [hr']) fun ht => absurd ht hlate
  | @aside k w hw hk' hrun hfk hc hidle h0 hline hr hearly =>
    have hki : k ≠ i := by
      rintro rfl
      exact hrun hi
    by_cases hnext : a'.sched.running = some k
    · refine .back (by rw [hwaits, hw]) hnext hk'.1 (.inl (by rwa [hframe])) (by rwa [hk.count]) ?_
        (by rwa [hr']) hlate
      refine hline.step hi hs (fun _ _ => by rw [hframe]) (fun l hl _ => ?_) fun hl => ?_
      · rwa [List.mem_singleton.mp hl]
      · exact absurd rfl ((live_iff_exit hi hs _).mp hl).2
    · obtain ⟨hidle', h0', hline'⟩ := Idle.exit hline hK.setUp hi hs hframe (by simpa using hnext)
      exact .aside (by rw [hwaits, hw]) (hk'.step hki hi hs) hnext (by rwa [hframe])
        (by rwa [hk.count]) hidle' h0' hline' (by rwa [hr']) fun ht => absurd ht hlate
  -- the other threads have a request for the token
  | giving hw hj hfj hc hi' h0 hf' =>
    obtain rfl := Option.some.inj (hi.symm.trans hi')
    cases hf.symm.trans hf'
  | woken hw hk' hki hfk hi' h0 hf' =>
    obtain rfl := Option.some.inj (hi.symm.trans hi')
    rcases hf' with ⟨hf', -⟩ | ⟨hf', -⟩
    · cases (owesAt_wait hf').symm.trans howes
    · cases hf.symm.trans hf'
  | passing hw hk' hki hfk hi' h0 hf' =>
    obtain rfl := Option.some.inj (hi.symm.trans hi')
    rcases hf' with ⟨hf', -⟩ | ⟨hf', -⟩ | ⟨hf', -⟩ | ⟨hf', -⟩
    · cases hf.symm.trans hf'
    · cases hf.symm.trans hf'
    · cases (owesAt_wait hf').symm.trans howes
    · cases hf.symm.trans hf'
  | back hw hi' h0 hf' =>
    obtain rfl := Option.some.inj (hi.symm.trans hi')
    cases (hf'.elim owesAt_posted owesAt_wait).symm.trans howes

/-- **Every step keeps the token where the mode says**, or leads to the next mode. -/
theorem next (hb : T.build = .semaphore) (hK : Known T a) (hp : a.g.syncPrim = some p)
    (h : SemMode T a p) (hs : Steps T a a') : SemMode T a' p := by
  have hmain := h.running_ne_zero
  cases hs with
  | pool hi | made hi | held hi | create hi | notCreated hi | resume hi => exact absurd hi hmain
  | act hi' h0' hact hs hframe =>
    cases h with
    | resting hw hj hfj hc hidle h0 hline hr hearly =>
      exact resting_act hK hw hj hfj hc hidle hline hr hearly hi' h0' hact hs hframe
    | giving hw hj hfj hc hi h0 hf hline hr hearly =>
      obtain rfl := Option.some.inj (hi.symm.trans hi')
      exact giving_act hb hK hp hw hj hfj hc hi h0 hf hline hr hearly hact hs hframe
    | woken hw hk hki hfk hi h0 hf hline hr hearly =>
      obtain rfl := Option.some.inj (hi.symm.trans hi')
      exact woken_act hb hK hw hk hki hfk hi h0 hf hline hr hearly hact hs hframe
    | aside hw hk hrun hfk hc hidle h0 hline hr hearly =>
      exact aside_act hK hw hk hrun hfk hc hidle hline hr hearly hi' h0' hact hs hframe
    | passing hw hk hki hfk hi h0 hf hline hr hearly =>
      obtain rfl := Option.some.inj (hi.symm.trans hi')
      exact passing_act hb hK hp hw hk hki hfk hi h0 hf hline hr hearly hact hs hframe
    | back hw hi h0 hf hc hline hr hlate =>
      obtain rfl := Option.some.inj (hi.symm.trans hi')
      exact back_act hb hK hp hw hi h0 hf hc hline hr hlate hact hs hframe
  | exit hi' _ hf' hs hframe hk => exact h.exit hK hi' hf' hs hframe hk
  | env he hs hframe hk =>
    have hg := hk.g.trans (call_eq he).2
    exact h.congr hs hframe hk.count (by rw [hg]; rfl) (by rw [hg]; rfl) (by rw [hg]; rfl)

/-- When the server receives, one client waits, whose thread sleeps or is behind its
`thread_semaphore_V`. -/
theorem one_waits (h : SemMode T a p) (hinv : Inv (desk a)) (hi : a.sched.running = some i)
    (hf : a.frame i = .user .recv) : ∃ w, ∀ c, (a.g.client c).waits = true ↔ c ∈ [w] := by
  have howes : owesAt a i = none := by
    rw [owesAt, hf]
    rfl
  cases h with
  | @resting j w hw hj hfj hc hidle h0 hline =>
    exact ⟨w, hline.waits_one hinv hj (owesAt_wait hfj) hidle⟩
  | @aside k w hw hk hrun hfk hc hidle h0 hline =>
    exact ⟨w, hline.waits_one hinv hk (owesAt_posted hfk) hidle⟩
  | giving hw hj hfj hc hi' h0 hf' =>
    obtain rfl := Option.some.inj (hi.symm.trans hi')
    cases hf.symm.trans hf'
  | woken hw hk hki hfk hi' h0 hf' =>
    obtain rfl := Option.some.inj (hi.symm.trans hi')
    rcases hf' with ⟨hf', -⟩ | ⟨hf', -⟩
    · cases (owesAt_wait hf').symm.trans howes
    · cases hf.symm.trans hf'
  | passing hw hk hki hfk hi' h0 hf' =>
    obtain rfl := Option.some.inj (hi.symm.trans hi')
    rcases hf' with ⟨hf', -⟩ | ⟨hf', -⟩ | ⟨hf', -⟩ | ⟨hf', -⟩
    · cases hf.symm.trans hf'
    · cases hf.symm.trans hf'
    · cases (owesAt_wait hf').symm.trans howes
    · cases hf.symm.trans hf'
  | back hw hi' h0 hf' =>
    obtain rfl := Option.some.inj (hi.symm.trans hi')
    cases (hf'.elim owesAt_posted owesAt_wait).symm.trans howes

/-- **The second request.** As long as no thread has exited, its client waits, and the others are
answered in order. -/
theorem second (h : SemMode T a p) (hinv : Inv (desk a)) (ht : a.g.terminateNum = 0)
    {c₀ c₁ : Fin n} {rest : List (Fin n)} (hrec : a.g.received = c₀ :: c₁ :: rest) :
    (a.g.client c₁).waits = true ∧ (∃ late, c₀ :: rest = a.g.answered ++ late) ∧
      (∀ i, a.sched.running = some i → a.frame i = .user .recv →
        a.g.answered = c₀ :: rest) := by
  have hwaits : ∀ {k}, Live a k → owesAt a k = some c₁ → (a.g.client c₁).waits = true :=
    fun hk ho => (waits_iff_owes hinv).mpr ⟨_, hk, ho⟩
  cases h with
  | resting hw hj hfj hc hidle h0 hline hr hearly =>
    cases hrec.symm.trans (hearly ht).1
  | giving hw hj hfj hc hi h0 hf hline hr hearly =>
    obtain ⟨h₁, h₂⟩ := hearly ht
    cases hrec.symm.trans h₁
    refine ⟨hwaits (live_of_running hi h0) (by rw [owesAt, hf]; rfl), ⟨_, by rw [h₂]; rfl⟩, ?_⟩
    intro l hl hrecv
    obtain rfl := Option.some.inj (hi.symm.trans hl)
    cases hf.symm.trans hrecv
  | woken hw hk hki hfk hi h0 hf hline hr hearly =>
    obtain ⟨h₁, h₂⟩ := hearly ht
    cases hrec.symm.trans h₁
    refine ⟨hwaits hk (owesAt_posted hfk), ⟨_, by rw [h₂]; rfl⟩, ?_⟩
    intro l hl hrecv
    obtain rfl := Option.some.inj (hi.symm.trans hl)
    rcases hf with ⟨hf, -⟩ | ⟨hf, -⟩
    · exact absurd (hf.symm.trans hrecv) waitFrame_ne_user
    · cases hf.symm.trans hrecv
  | aside hw hk hrun hfk hc hidle h0 hline hr hearly =>
    obtain ⟨_, _, h₁, h₂⟩ := hearly ht
    cases hrec.symm.trans h₁
    exact ⟨hwaits hk (owesAt_posted hfk), ⟨[], by rw [h₂, List.append_nil]⟩, fun _ _ _ => h₂⟩
  | passing hw hk hki hfk hi h0 hf hline hr hearly =>
    obtain ⟨_, _, h₁, h₂⟩ := hearly ht
    cases hrec.symm.trans h₁
    refine ⟨hwaits hk (owesAt_posted hfk), ⟨_, by rw [h₂]; rfl⟩, ?_⟩
    intro l hl hrecv
    obtain rfl := Option.some.inj (hi.symm.trans hl)
    rcases hf with ⟨hf, -⟩ | ⟨hf, -⟩ | ⟨hf, -⟩ | ⟨hf, -⟩
    · cases hf.symm.trans hrecv
    · cases hf.symm.trans hrecv
    · exact absurd (hf.symm.trans hrecv) waitFrame_ne_user
    · cases hf.symm.trans hrecv
  | back hw hi h0 hf hc hline hr hlate => exact absurd ht hlate

end SemMode

/-- **The token is kept.** In every run of the token server with a semaphore, exactly one client
waits when the server receives after the first request for the token. But the token does not go
around: until a client ends with `TMNT`, the client that asked second waits, and all others are
answered in the order of their requests, each at the latest when the server receives again. -/
theorem token_kept (hb : T.build = .semaphore) {m : Mach (TokenPc n) (TokenShared n)}
    (hm : Reach T.runs m) :
    (m.cpu = .user .recv → m.g.received ≠ [] →
      ∃ w, ∀ c, (m.g.client c).waits = true ↔ c = w) ∧
    (m.g.terminateNum = 0 → ∀ c₀ c₁ rest, m.g.received = c₀ :: c₁ :: rest →
      (m.g.client c₁).waits = true ∧ (∃ late, c₀ :: rest = m.g.answered ++ late) ∧
        (m.cpu = .user .recv → m.g.answered = c₀ :: rest)) := by
  obtain ⟨a, ht, hinv, hprog⟩ := Tracks.order (R := SemMode T)
    (fun a p j c h => .resting h.waiting h.live h.frame (h.unused.2 hb) h.idle h.nonzero h.line
      (by simp [h.received]) fun _ => ⟨h.received, h.answered⟩)
    (fun a a' p hK hp h hs => h.next hb hK hp hs) hm
  rw [ht.sim.g]
  cases hprog with
  | unmade hp hr ha =>
    refine ⟨fun _ hne => absurd hr hne, fun _ c₀ c₁ rest hrec => ?_⟩
    cases hrec.symm.trans hr
  | opening hp h =>
    obtain ⟨ha, hwaits, hcase⟩ := h.pending hinv
    refine ⟨fun hcpu hne => ?_, fun _ c₀ c₁ rest hrec => ?_⟩
    · rcases hcase with hr | ⟨c, i, hr, -⟩
      · exact absurd hr hne
      · refine ⟨c, fun d => ?_⟩
        rw [hwaits, hr, List.mem_singleton]
    · rcases hcase with hr | ⟨c, i, hr, -⟩ <;> cases hrec.symm.trans hr
  | passing hp h =>
    refine ⟨fun hcpu hne => ?_, fun hterm c₀ c₁ rest hrec => ?_⟩
    · obtain ⟨c, rest, -⟩ := List.exists_cons_of_ne_nil hne
      obtain ⟨i, hi, -, hf⟩ := ht.at_recv hcpu c
      obtain ⟨w, hw⟩ := h.one_waits hinv hi hf
      exact ⟨w, fun c => (hw c).trans List.mem_singleton⟩
    · obtain ⟨hwaits, hlate, hrecv⟩ := h.second hinv hterm hrec
      refine ⟨hwaits, hlate, fun hcpu => ?_⟩
      obtain ⟨i, hi, -, hf⟩ := ht.at_recv hcpu c₀
      exact hrecv i hi hf

/-- Client 0 gets its own token back, and client 1 waits. -/
theorem token_kept_once :
    ∃ m, Reach (TokenServer.runs (n := 2) ⟨.semaphore, 2⟩) m ∧ m.cpu = .user .recv ∧
      m.g.terminateNum = 0 ∧ m.g.received = [0, 1, 0] ∧
      (∃ w, ∀ c, (m.g.client c).waits = true ↔ c = w) ∧ (m.g.client 1).waits = true ∧
      m.g.answered = [0, 0] := by
  obtain ⟨m, hm, hcpu, ht, hr⟩ := Reach.exists_of_exec
    (TokenServer.step (n := 2) ⟨.semaphore, 2⟩) (fun _ _ _ h => h) (.init (boot_init _))
    (twoClients ++ asks 0 .sendWait ++ [go 0, go 0, .turn, go 0])
    (fun m => m.cpu = .user .recv ∧ m.g.terminateNum = 0 ∧ m.g.received = [0, 1, 0])
    (by decide +kernel)
  obtain ⟨hone, hkept⟩ := token_kept rfl hm
  obtain ⟨hwaits, -, hanswered⟩ := hkept ht 0 1 [0] hr
  exact ⟨m, hm, hcpu, ht, hr, hone hcpu (by simp [hr]), hwaits, hanswered hcpu⟩

end TokenServer

end GreenLib
