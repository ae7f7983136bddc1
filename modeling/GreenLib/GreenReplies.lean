import GreenLib.GreenDesk

/-!
# Replies of the green server

Which reply capability is where. A thread has a slot of its own, and the caller of a `PRODUCER` or
`CONSUMER` request is saved there, which is empty at that moment (`GreenDesk.Inv.slot_empty`): the
capability of the thread's last request has been used, and those of the `INIT` requests have been
used when the barrier opened (`GreenDesk.Inv.registerClient_eq`), before any client could make
another call.

The invariant is about the desk (`GreenDesk.Inv`), and every step at the desk keeps it
(`GreenDesk.Inv.next`). A step concerns one thread and one client, and `GreenDesk.Inv.concerns`
leaves only what is said about these two to be shown.
-/

namespace GreenLib

/-! ## The answers to `INIT` -/

namespace Shared

variable {n : ℕ}

/-- The clients whose ids are in `is` have been answered, and their reply capabilities have been
used. -/
def answerInits (g : Shared n) (idOf : Fin n → ℕ) (is : List ℕ) : Shared n :=
  { g with
    client := fun c =>
      if idOf c ∈ is then (g.client c).answer (some (initMessage (idOf c))) else g.client c
    cap := fun sl => (g.cap sl).filter fun c => idOf c ∉ is }

/-- Answering the clients one after the other through `reply_eps`, if each capability is in the slot
that `reply_eps` says, and in no other. -/
theorem foldl_send {idOf : Fin n → ℕ} (is : List ℕ) (hnd : is.Nodup)
    (hinj : Function.Injective idOf) (hall : ∀ i ∈ is, ∃ c, idOf c = i) (g : Shared n)
    (hcap : ∀ c, idOf c ∈ is → g.cap (g.replyEps (idOf c)) = some c)
    (hslot : ∀ sl c, g.cap sl = some c → idOf c ∈ is → sl = g.replyEps (idOf c)) :
    is.foldl (fun g i => g.send (g.replyEps i) (some (initMessage i))) g =
      g.answerInits idOf is := by
  induction is generalizing g with
  | nil =>
    have hkeep : ∀ o : Option (Fin n), o.filter (fun _ => true) = o := by rintro (_ | c) <;> rfl
    simp [answerInits, hkeep]
  | cons i is ih =>
    obtain ⟨hi, hnd'⟩ := List.nodup_cons.mp hnd
    obtain ⟨c, rfl⟩ := hall i List.mem_cons_self
    have hc := hcap c List.mem_cons_self
    have hne : ∀ d, idOf d ∈ is → d ≠ c := fun d hd he => hi (he ▸ hd)
    have hsend : g.send (g.replyEps (idOf c)) (some (initMessage (idOf c))) =
        { g.setClient c ((g.client c).answer (some (initMessage (idOf c)))) with
          cap := Function.update g.cap (g.replyEps (idOf c)) none } := send_of_cap hc
    rw [List.foldl_cons, hsend, ih hnd' (fun j hj => hall j (List.mem_cons_of_mem _ hj))]
    · -- the state after the first answer, answered by the others
      simp only [answerInits, setClient]
      congr 2
      · funext sl
        rcases eq_or_ne sl (g.replyEps (idOf c)) with rfl | hsl
        · simp [hc, Option.filter]
        · rw [Function.update_of_ne hsl]
          rcases hd : g.cap sl with _ | d
          · rfl
          · have hdc : idOf d ≠ idOf c := fun he =>
              hsl (hslot sl c (hinj he ▸ hd) List.mem_cons_self)
            simp [Option.filter, hdc]
      · funext d
        rcases eq_or_ne d c with rfl | hdc
        · simp [hi]
        · have hid : idOf d ≠ idOf c := fun he => hdc (hinj he)
          simp [Function.update_of_ne hdc, hid]
    · intro d hd
      have hd' := hcap d (List.mem_cons_of_mem _ hd)
      change Function.update g.cap (g.replyEps (idOf c)) none (g.replyEps (idOf d)) = some d
      rw [Function.update_of_ne, hd']
      intro he
      rw [he, hc] at hd'
      exact hne d hd (Option.some.inj hd').symm
    · intro sl d hd hd'
      change Function.update g.cap (g.replyEps (idOf c)) none sl = some d at hd
      rcases eq_or_ne sl (g.replyEps (idOf c)) with rfl | hsl
      · rw [Function.update_self] at hd
        cases hd
      · rw [Function.update_of_ne hsl] at hd
        exact hslot sl d hd (List.mem_cons_of_mem _ hd')

/-- **The barrier opens**: the handler of the last `INIT` answers its own client and all others, and
no capability is left. -/
theorem registerClient_open {g : Shared n} {id sl : ℕ} (hn : n = g.clientNew) (hpos : 0 < n)
    {idOf : Fin n → ℕ} (hinj : Function.Injective idOf) (hall : ∀ i, i < n ↔ ∃ c, idOf c = i)
    (hcap : ∀ c, g.cap (Function.update g.replyEps id sl (idOf c)) = some c)
    (hslot : ∀ sl' c, g.cap sl' = some c → sl' = Function.update g.replyEps id sl (idOf c)) :
    g.registerClient id sl = { g with
      replyEps := Function.update g.replyEps id sl
      client := fun c => (g.client c).answer (some (initMessage (idOf c)))
      cap := fun _ => none } := by
  have hbarrier : ({ g with replyEps := Function.update g.replyEps id sl } : Shared n).clientBarrier
      = true := by simp [ClientPool.clientBarrier, hn]
  have hrange : ∀ i, i ∈ 0 :: List.range' 1 (n - 1) ↔ i < n := by
    intro i
    rw [List.mem_cons, List.mem_range'_1]
    omega
  have hmem : ∀ c, idOf c ∈ 0 :: List.range' 1 (n - 1) := fun c =>
    (hrange _).mpr ((hall _).mpr ⟨c, rfl⟩)
  have hfold := foldl_send (0 :: List.range' 1 (n - 1))
    (List.nodup_cons.mpr ⟨by simp, List.nodup_range'⟩) hinj
    (fun i hi => (hall i).mp ((hrange i).mp hi))
    { g with replyEps := Function.update g.replyEps id sl } (fun c _ => hcap c)
    (fun sl' c hc _ => hslot sl' c hc)
  simp only [registerClient, hbarrier, if_true]
  rw [List.foldl_cons] at hfold
  have hmulti : ∀ g : Shared n, g.processMessageMulticast =
      (List.range' 1 (n - 1)).foldl (fun g i => g.send (g.replyEps i) (some (initMessage i)))
        g := by
    intro g
    refine List.foldl_ext _ _ _ fun g i hi => ?_
    have hi0 : i ≠ 0 := by
      rw [List.mem_range'_1] at hi
      omega
    rw [initMessage, if_neg hi0]
  rw [hmulti]
  refine hfold.trans ?_
  simp only [answerInits, if_pos (hmem _)]
  congr 2
  funext sl'
  rcases g.cap sl' with _ | c
  · rfl
  · simp [Option.filter, hmem c]

end Shared

/-! ## The invariant -/

/-- The `INIT` request of the client has not been answered, or not even been made. -/
def ClientPhase.Early : ClientPhase → Prop
  | .fresh | .asked .init | .served .init => True
  | _ => False

/-- How many of the requests received from the client have not been answered. A `TMNT` never is. -/
def ClientPhase.pending : ClientPhase → ℕ
  | .served _ | .gone => 1
  | _ => 0

namespace GreenDesk

variable {n : ℕ} {x x' : GreenDesk n} {c d : Fin n} {i : ℕ}

/-- The slots of the threads, and those with a capability, are allocated. No two threads have the
same one. -/
structure Slots (x : GreenDesk n) : Prop where
  used : ∀ i, x.live i → x.used (x.slot i) = true
  distinct : ∀ i j, x.live i → x.live j → x.slot i = x.slot j → i = j
  cap : ∀ sl c, x.g.cap sl = some c → x.used sl = true

/-- What the job of thread `i` says: where the reply capability of its client is, and what the
client waits for. -/
def Fits (x : GreenDesk n) (i : ℕ) : Job n → Prop
  | .free => True
  | .got c r => x.g.caller = some c ∧ (x.g.client c).phase = .served r ∧
    ∀ sl, x.g.cap sl ≠ some c
  | .inited c id => x.g.caller = some c ∧ (x.g.client c).phase = .served .init ∧
    (∀ sl, x.g.cap sl ≠ some c) ∧ (x.g.client c).given = some id ∧ x.g.cap (x.slot i) = none
  | .serving role c sl => x.slot i = sl ∧ x.g.cap sl = some c ∧
    (x.g.client c).phase = .served (.op role)

/-- Where the capability of `c` in the slot `sl` comes from: an `INIT` at the barrier, or a request
that a thread serves. -/
def Origin (x : GreenDesk n) (sl : ℕ) (c : Fin n) : Prop :=
  ((x.g.client c).phase = .served .init ∧
    ∃ id, (x.g.client c).given = some id ∧ x.g.replyEps id = sl) ∨
  ∃ i role, x.job i = .serving role c sl

/-- The client has the answer to its `INIT` request, once, with the id that was given to it. -/
def Welcomed (x : Client) : Prop :=
  ∃ id, x.given = some id ∧ x.inits = [initMessage id] ∧ x.id = id

/-- What the phase of client `c` says about its id, its answers to `INIT`, and where its `INIT`
request is. -/
def Stands (x : GreenDesk n) (c : Fin n) : ClientPhase → Prop
  | .fresh | .asked .init => (x.g.client c).given = none ∧ (x.g.client c).inits = []
  | .served .init => (x.g.client c).inits = [] ∧
    ((x.g.client c).given = none ∧ (∃ i, x.job i = .got c .init) ∨
      ∃ id, (x.g.client c).given = some id ∧
        ((∃ i, x.job i = .inited c id) ∨ x.g.cap (x.g.replyEps id) = some c))
  | _ => Welcomed (x.g.client c)

theorem Stands.welcomed {p : ClientPhase} (h : x.Stands c p) (hp : ¬ p.Early) :
    Welcomed (x.g.client c) := by
  rcases p with _ | _ | _ | _ | _
  case asked r =>
    cases r with
    | init => exact absurd trivial hp
    | _ => exact h
  case served r =>
    cases r with
    | init => exact absurd trivial hp
    | _ => exact h
  case fresh => exact absurd trivial hp
  all_goals exact h

theorem Welcomed.stands {p : ClientPhase} (h : Welcomed (x.g.client c)) (hp : ¬ p.Early) :
    x.Stands c p := by
  rcases p with _ | _ | _ | _ | _
  case asked r =>
    cases r with
    | init => exact absurd trivial hp
    | _ => exact h
  case served r =>
    cases r with
    | init => exact absurd trivial hp
    | _ => exact h
  case fresh => exact absurd trivial hp
  all_goals exact h

/-- The barrier is closed: no `INIT` has been answered, and there are clients or handlers that have
still to come to it. -/
def Closed (x : GreenDesk n) : Prop :=
  (∀ c, (x.g.client c).phase.Early) ∧
    (x.g.clientNew < n ∨ ∃ i c id, x.job i = .inited c id)

/-- The barrier is open: every client has the answer to its `INIT`. -/
def Opened (x : GreenDesk n) : Prop := ∀ c, ¬ (x.g.client c).phase.Early

structure Inv (x : GreenDesk n) : Prop where
  slots : x.Slots
  free : ∀ i, ¬ x.live i → x.job i = .free
  fits : ∀ i, x.Fits i (x.job i)
  origin : ∀ sl c, x.g.cap sl = some c → x.Origin sl c
  one : ∀ sl sl' c, x.g.cap sl = some c → x.g.cap sl' = some c → sl = sl'
  stands : ∀ c, x.Stands c (x.g.client c).phase
  count : ∀ c, (x.g.client c).asks = (x.g.client c).answers + (x.g.client c).phase.pending
  barrier : x.Closed ∨ x.Opened
  ids : Numbered (fun c => (x.g.client c).given) x.g.clientNew

namespace Inv

/-- A thread with a job exists, since one that has exited is free. -/
theorem live (h : x.Inv) (hj : x.job i ≠ .free) : x.live i := by
  by_contra hi
  exact hj (h.free i hi)

/-- The request of a client that a job is about has been received, -/
theorem served_of_about (h : x.Inv) (hj : (x.job i).about = some c) :
    ∃ r, (x.g.client c).phase = .served r := by
  have hfit := h.fits i
  rcases hi : x.job i with _ | ⟨d, r⟩ | ⟨d, id⟩ | ⟨role, d, sl⟩ <;> rw [hi] at hj hfit
  · cases hj
  · cases hj
    exact ⟨_, hfit.2.1⟩
  · cases hj
    exact ⟨_, hfit.2.1⟩
  · cases hj
    exact ⟨_, hfit.2.2⟩

/-- and that of a client whose capability is in a slot. -/
theorem served_of_cap (h : x.Inv) {sl : ℕ} (hc : x.g.cap sl = some c) :
    ∃ r, (x.g.client c).phase = .served r := by
  rcases h.origin sl c hc with ⟨hp, -⟩ | ⟨i, role, hi⟩
  · exact ⟨_, hp⟩
  · exact h.served_of_about (i := i) (by rw [hi]; rfl)

/-- A thread that is the only one in between, and has the request of `c` before it is saved, is the
only one that is about `c`. -/
theorem other_of_hot (h : x.Inv) (halone : ∀ j, j ≠ i → ¬ (x.job j).Hot)
    (hcap : ∀ sl, x.g.cap sl ≠ some c) (j : ℕ) (hj : j ≠ i) : (x.job j).about ≠ some c := by
  intro hc
  have hfit := h.fits j
  have hcold := halone j hj
  rcases hji : x.job j with _ | ⟨d, r⟩ | ⟨d, id⟩ | ⟨role, d, sl⟩ <;> rw [hji] at hc hfit hcold
  · cases hc
  · exact hcold trivial
  · exact hcold trivial
  · cases hc
    exact hcap sl hfit.2.1

/-- Two threads that serve are about different clients, because their slots are different and a
client has one capability. -/
theorem other_of_serving (h : x.Inv) {role : Role} {sl : ℕ} (hi : x.job i = .serving role c sl)
    {j : ℕ} (hcold : ¬ (x.job j).Hot) (hj : j ≠ i) : (x.job j).about ≠ some c := by
  intro hc
  have hfiti := h.fits i
  have hfit := h.fits j
  have hlive := h.live (i := j) (fun he => by rw [he] at hc; cases hc)
  rw [hi] at hfiti
  rcases hji : x.job j with _ | ⟨d, r⟩ | ⟨d, id⟩ | ⟨role', d, sl'⟩ <;> rw [hji] at hc hfit hcold
  · cases hc
  · exact hcold trivial
  · exact hcold trivial
  · cases hc
    have hsl := h.one sl sl' c hfiti.2.1 hfit.2.1
    refine hj (h.slots.distinct j i hlive (h.live (by rw [hi]; nofun)) ?_)
    rw [hfit.1, hfiti.1, hsl]

end Inv

/-- **A step that concerns** the thread `i`, if any, and the client `c`. The others are as before,
and nobody in between sees the caller change. -/
structure Concerns (x x' : GreenDesk n) (i : Option ℕ) (c : Fin n) : Prop where
  live : ∀ j, i ≠ some j → (x'.live j ↔ x.live j)
  job : ∀ j, i ≠ some j → x'.job j = x.job j
  slot : ∀ j, i ≠ some j → x'.slot j = x.slot j
  client : ∀ d, d ≠ c → x'.g.client d = x.g.client d
  cap : ∀ sl d, d ≠ c → (x'.g.cap sl = some d ↔ x.g.cap sl = some d)
  eps : ∀ d id, d ≠ c → (x.g.client d).given = some id → x'.g.replyEps id = x.g.replyEps id
  hot : ∀ j, i ≠ some j → (x.job j).Hot → x'.g.caller = x.g.caller ∧ x'.g.cap = x.g.cap
  other : ∀ j, i ≠ some j → (x.job j).about ≠ some c
  self : ∀ j d, i = some j → (x.job j).about = some d → d = c

namespace Concerns

variable {i : Option ℕ}

/-- The jobs of the other threads still fit, because they are about other clients. -/
theorem fits (hx : Concerns x x' i c) (h : x.Inv) {j : ℕ} (hj : i ≠ some j) :
    x'.Fits j (x'.job j) := by
  have hfit := h.fits j
  have hother := hx.other j hj
  have hhot := hx.hot j hj
  rw [hx.job j hj]
  rcases hji : x.job j with _ | ⟨d, r⟩ | ⟨d, id⟩ | ⟨role, d, sl⟩ <;> rw [hji] at hfit hother hhot
  · trivial
  · have hd : d ≠ c := fun he => hother (he ▸ rfl)
    refine ⟨(hhot trivial).1.trans hfit.1, ?_, fun sl hsl => hfit.2.2 sl ((hx.cap sl d hd).mp hsl)⟩
    rw [hx.client d hd]
    exact hfit.2.1
  · have hd : d ≠ c := fun he => hother (he ▸ rfl)
    obtain ⟨hcaller, hcap⟩ := hhot trivial
    refine ⟨hcaller.trans hfit.1, ?_, fun sl hsl => hfit.2.2.1 sl ((hx.cap sl d hd).mp hsl), ?_, ?_⟩
    · rw [hx.client d hd]
      exact hfit.2.1
    · rw [hx.client d hd]
      exact hfit.2.2.2.1
    · rw [hcap, hx.slot j hj]
      exact hfit.2.2.2.2
  · have hd : d ≠ c := fun he => hother (he ▸ rfl)
    refine ⟨(hx.slot j hj).trans hfit.1, (hx.cap sl d hd).mpr hfit.2.1, ?_⟩
    rw [hx.client d hd]
    exact hfit.2.2

/-- The jobs about other clients are what they were: the thread of the step is about `c` or
nobody. -/
theorem job_of_about (hx : Concerns x x' i c) (hd : d ≠ c) {j : ℕ}
    (hj : (x.job j).about = some d) : x'.job j = x.job j :=
  hx.job j fun hi => hd (hx.self j d hi hj)

/-- The capabilities of other clients come from where they came from, as `reply_eps` is the same for
them. -/
theorem origin (hx : Concerns x x' i c) (h : x.Inv) (hd : d ≠ c) {sl : ℕ}
    (hsl : x'.g.cap sl = some d) : x'.Origin sl d := by
  rcases h.origin sl d ((hx.cap sl d hd).mp hsl) with ⟨hp, id, hid, heps⟩ | ⟨j, role, hj⟩
  · refine .inl ⟨?_, id, ?_, (hx.eps d id hd hid).trans heps⟩
    · rw [hx.client d hd]
      exact hp
    · rw [hx.client d hd]
      exact hid
  · exact .inr ⟨j, role, (hx.job_of_about hd (by rw [hj]; rfl)).trans hj⟩

/-- Other clients stand where they stood, and the handlers of their `INIT` requests are the same. -/
theorem stands (hx : Concerns x x' i c) (h : x.Inv) (hd : d ≠ c) :
    x'.Stands d (x'.g.client d).phase := by
  have hstands := h.stands d
  rw [hx.client d hd]
  rcases hp : (x.g.client d).phase with _ | r | r | _ | _ <;> rw [hp] at hstands
  case fresh => simpa only [Stands, hx.client d hd] using hstands
  case idle => simpa only [Stands, hx.client d hd] using hstands
  case gone => simpa only [Stands, hx.client d hd] using hstands
  case asked => cases r <;> simpa only [Stands, hx.client d hd] using hstands
  case served =>
    cases r with
    | init =>
      simp only [Stands, hx.client d hd] at hstands ⊢
      refine ⟨hstands.1, hstands.2.imp ?_ ?_⟩
      · rintro ⟨hgiven, j, hj⟩
        exact ⟨hgiven, j, (hx.job_of_about hd (by rw [hj]; rfl)).trans hj⟩
      · rintro ⟨id, hgiven, hcase⟩
        refine ⟨id, hgiven, hcase.imp ?_ ?_⟩
        · rintro ⟨j, hj⟩
          exact ⟨j, (hx.job_of_about hd (by rw [hj]; rfl)).trans hj⟩
        · intro hcap
          rw [hx.eps d id hd hgiven]
          exact (hx.cap _ d hd).mpr hcap
    | _ => simpa only [Stands, hx.client d hd] using hstands

/-- The barrier stays closed or open, if the step is not that of a handler at the barrier. -/
theorem barrier (hx : Concerns x x' i c) (h : x.Inv)
    (hearly : (x'.g.client c).phase.Early ↔ (x.g.client c).phase.Early)
    (hnew : x'.g.clientNew = x.g.clientNew)
    (hi : ∀ j d id, i = some j → x.job j ≠ .inited d id) : x'.Closed ∨ x'.Opened := by
  have hsame : ∀ d, (x'.g.client d).phase.Early ↔ (x.g.client d).phase.Early := by
    intro d
    rcases eq_or_ne d c with rfl | hd
    · exact hearly
    · rw [hx.client d hd]
  refine h.barrier.imp ?_ fun ho d hd => ho d ((hsame d).mp hd)
  rintro ⟨hall, hlt⟩
  refine ⟨fun d => (hsame d).mpr (hall d), hlt.imp (fun hlt => hnew ▸ hlt) ?_⟩
  rintro ⟨j, d, id, hj⟩
  exact ⟨j, d, id, (hx.job j fun he => hi j d id he hj).trans hj⟩

/-- Nobody takes an id, so the ids are still numbered from 0 up to `client_new`. -/
theorem ids (hx : Concerns x x' i c) (h : x.Inv)
    (hgiven : (x'.g.client c).given = (x.g.client c).given)
    (hnew : x'.g.clientNew = x.g.clientNew) :
    Numbered (fun d => (x'.g.client d).given) x'.g.clientNew := by
  have hsame : (fun d => (x'.g.client d).given) = fun d => (x.g.client d).given := by
    funext d
    rcases eq_or_ne d c with rfl | hd
    · exact hgiven
    · rw [hx.client d hd]
  rw [hsame, hnew]
  exact h.ids

end Concerns

/-- **What is left to show** of a step is what it says about its thread and its client. -/
theorem Inv.concerns {i : Option ℕ} (h : x.Inv) (hx : Concerns x x' i c) (hslots : x'.Slots)
    (hself : ∀ j, i = some j → x'.Fits j (x'.job j) ∧ (¬ x'.live j → x'.job j = .free))
    (horigin : ∀ sl, x'.g.cap sl = some c → x'.Origin sl c)
    (hone : ∀ sl sl', x'.g.cap sl = some c → x'.g.cap sl' = some c → sl = sl')
    (hstands : x'.Stands c (x'.g.client c).phase)
    (hcount : (x'.g.client c).asks = (x'.g.client c).answers + (x'.g.client c).phase.pending)
    (hbarrier : x'.Closed ∨ x'.Opened)
    (hids : Numbered (fun d => (x'.g.client d).given) x'.g.clientNew) : x'.Inv where
  slots := hslots
  free j hj := by
    by_cases hi : i = some j
    · exact (hself j hi).2 hj
    · rw [hx.job j hi]
      exact h.free j fun hl => hj ((hx.live j hi).mpr hl)
  fits j := by
    by_cases hi : i = some j
    · exact (hself j hi).1
    · exact hx.fits h hi
  origin sl d hsl := by
    rcases eq_or_ne d c with rfl | hd
    · exact horigin sl hsl
    · exact hx.origin h hd hsl
  one sl sl' d hsl hsl' := by
    rcases eq_or_ne d c with rfl | hd
    · exact hone sl sl' hsl hsl'
    · exact h.one sl sl' d ((hx.cap sl d hd).mp hsl) ((hx.cap sl' d hd).mp hsl')
  stands d := by
    rcases eq_or_ne d c with rfl | hd
    · exact hstands
    · exact hx.stands h hd
  count d := by
    rcases eq_or_ne d c with rfl | hd
    · exact hcount
    · rw [hx.client d hd]
      exact h.count d
  barrier := hbarrier
  ids := hids

/-! ## The steps -/

/-- A step of thread `i` that is about `c`, while no other thread is in between. So no job depends
on the caller. -/
theorem concerns_thread {J : Job n} (hlive : ∀ j, j ≠ i → (x'.live j ↔ x.live j))
    (hjob : x'.job = Function.update x.job i J) (hslot : ∀ j, j ≠ i → x'.slot j = x.slot j)
    (halone : ∀ j, j ≠ i → ¬ (x.job j).Hot) (hother : ∀ j, j ≠ i → (x.job j).about ≠ some c)
    (hself : ∀ d, (x.job i).about = some d → d = c)
    (hclient : ∀ d, d ≠ c → x'.g.client d = x.g.client d)
    (hcap : ∀ sl d, d ≠ c → (x'.g.cap sl = some d ↔ x.g.cap sl = some d))
    (heps : ∀ d id, d ≠ c → (x.g.client d).given = some id →
      x'.g.replyEps id = x.g.replyEps id) : Concerns x x' (some i) c := by
  have hne : ∀ {j}, some i ≠ some j → j ≠ i := fun hj he => hj (he ▸ rfl)
  refine ⟨fun j hj => hlive j (hne hj), fun j hj => ?_, fun j hj => hslot j (hne hj), hclient, hcap,
    heps, fun j hj hhot => absurd hhot (halone j (hne hj)), fun j hj => hother j (hne hj), ?_⟩
  · rw [hjob, Function.update_of_ne (hne hj)]
  · rintro j d ⟨⟩
    exact hself d

/-- The end of the `INIT` handler, before `client_barrier`: the caller is saved, and `reply_eps`
says where. -/
def atBarrier (x : GreenDesk n) (i id : ℕ) : GreenDesk n :=
  { x with
    job := Function.update x.job i .free
    g := { x.g.saveCaller (x.slot i) with
      replyEps := Function.update x.g.replyEps id (x.slot i) } }

namespace Inv

/-- What is left to show of a step of thread `i` for client `c`, with the new job and the new state
of the client by name. -/
theorem thread {J : Job n} (h : x.Inv) (hx : Concerns x x' (some i) c) (hjob : x'.job i = J)
    (hslots : x'.Slots) (hfits : x'.Fits i J) (hlive : x'.live i ∨ J = .free)
    (horigin : ∀ sl, x'.g.cap sl = some c → x'.Origin sl c)
    (hone : ∀ sl sl', x'.g.cap sl = some c → x'.g.cap sl' = some c → sl = sl')
    {y : Client} (hy : x'.g.client c = y) (hstands : x'.Stands c y.phase)
    (hcount : y.asks = y.answers + y.phase.pending) (hbarrier : x'.Closed ∨ x'.Opened)
    (hids : Numbered (fun d => (x'.g.client d).given) x'.g.clientNew) : x'.Inv := by
  subst hy hjob
  refine h.concerns hx hslots ?_ horigin hone hstands hcount hbarrier hids
  rintro j ⟨⟩
  exact ⟨hfits, fun hl => hlive.resolve_left hl⟩

/-- `seL4_Recv`: the kernel keeps the reply capability of the sender, until it is saved or the next
message is received. -/
theorem recv (h : x.Inv) {r : Request} (hi : x.live i) (hj : x.job i = .free)
    (halone : ∀ j, j ≠ i → ¬ (x.job j).Hot) (hc : (x.g.client c).phase = .asked r)
    (he : x' = { x with job := Function.update x.job i (.got c r), g := x.g.receive c r }) :
    x'.Inv := by
  have hserved : ∀ {r'}, (x.g.client c).phase ≠ .served r' := fun he => by
    rw [hc] at he
    cases he
  have hnocap : ∀ sl, x.g.cap sl ≠ some c := fun sl hsl => by
    obtain ⟨r', hr'⟩ := h.served_of_cap hsl
    exact hserved hr'
  have hclient : x'.g.client c = (x.g.client c).receive r := by
    rw [he]
    exact Function.update_self ..
  have hjob : x'.job i = .got c r := by
    rw [he]
    exact Function.update_self ..
  have hx : Concerns x x' (some i) c := by
    subst he
    refine concerns_thread (fun _ _ => Iff.rfl) rfl (fun _ _ => rfl) halone (fun j _ hd => ?_) ?_
      (fun d hd => Function.update_of_ne hd ..) (fun _ _ _ => Iff.rfl) (fun _ _ _ _ => rfl)
    · obtain ⟨r', hr'⟩ := h.served_of_about hd
      exact hserved hr'
    · rw [hj]
      nofun
  have hcap : x'.g.cap = x.g.cap := he ▸ rfl
  have hnocap' : ∀ sl, x'.g.cap sl ≠ some c := hcap ▸ hnocap
  have hstands := h.stands c
  have hcount := h.count c
  rw [hc] at hstands hcount
  refine h.thread hx hjob (he ▸ ⟨h.slots.used, h.slots.distinct, h.slots.cap⟩)
    ⟨he ▸ rfl, by rw [hclient]; rfl, hnocap'⟩ (.inl (he ▸ hi))
    (fun sl hsl => absurd hsl (hnocap' sl)) (fun sl _ hsl => absurd hsl (hnocap' sl)) hclient ?_
    (congrArg (· + 1) hcount) (hx.barrier h ?_ (he ▸ rfl) ?_)
    (hx.ids h (by rw [hclient]; rfl) (he ▸ rfl))
  · by_cases hr : r = .init
    · subst hr
      refine ⟨?_, .inl ⟨?_, i, hjob⟩⟩
      · rw [hclient]
        exact hstands.2
      · rw [hclient]
        exact hstands.1
    · have hlate : ¬ (ClientPhase.asked r).Early := by
        cases r <;> first | exact absurd rfl hr | nofun
      have hw : Welcomed (x'.g.client c) := by
        rw [hclient]
        exact hstands.welcomed hlate
      refine hw.stands ?_
      cases r <;> first | exact absurd rfl hr | nofun
  · rw [hclient, hc]
    cases r <;> exact Iff.rfl
  · rintro j d id ⟨⟩
    rw [hj]
    nofun

/-- A fresh slot for thread `i` keeps the slots apart. The slot that the thread had before stays
allocated. -/
theorem slots_alloc (h : x.Inv) {sl : ℕ} (hfree : x.used sl = false)
    (hlive : ∀ j, x'.live j → j = i ∨ x.live j) (hslot : x'.slot = Function.update x.slot i sl)
    (hused : x'.used = Function.update x.used sl true) (hcap : x'.g.cap = x.g.cap) : x'.Slots := by
  have hkeep : ∀ sl', x.used sl' = true → x'.used sl' = true := by
    intro sl' hsl'
    rw [hused]
    rcases eq_or_ne sl' sl with rfl | hne
    · exact Function.update_self ..
    · rwa [Function.update_of_ne hne]
  have hold : ∀ j, j ≠ i → x'.live j → x'.slot j = x.slot j ∧ x.used (x.slot j) = true := by
    intro j hj hl
    rw [hslot, Function.update_of_ne hj]
    exact ⟨rfl, h.slots.used j ((hlive j hl).resolve_left hj)⟩
  have hnew : x'.slot i = sl := by rw [hslot, Function.update_self]
  have hapart : ∀ j, j ≠ i → x'.live j → x'.slot j ≠ sl := by
    rintro j hj hl rfl
    obtain ⟨he, hu⟩ := hold j hj hl
    rw [he] at hfree
    cases hfree.symm.trans hu
  refine ⟨fun j hj => ?_, fun j k hj hk he => ?_, fun sl' c hc => ?_⟩
  · rcases eq_or_ne j i with rfl | hne
    · rw [hnew, hused, Function.update_self]
    · obtain ⟨he, hu⟩ := hold j hne hj
      rw [he]
      exact hkeep _ hu
  · rcases eq_or_ne j i with rfl | hji <;> rcases eq_or_ne k j with rfl | hkj
    · rfl
    · exact absurd (he.symm.trans hnew) (hapart k hkj hk)
    · rfl
    · rcases eq_or_ne k i with rfl | hki
      · exact absurd (he.trans hnew) (hapart j hji hj)
      · rw [(hold j hji hj).1, (hold k hki hk).1] at he
        exact h.slots.distinct j k ((hlive j hj).resolve_left hji)
          ((hlive k hk).resolve_left hki) he
  · exact hkeep _ (h.slots.cap sl' c (hcap ▸ hc))

/-- The `INIT` request that a thread has just received has not got an id. One with an id would be at
the barrier, or with a second thread in between. -/
theorem given_none (h : x.Inv) (hj : x.job i = .got c .init)
    (halone : ∀ j, j ≠ i → ¬ (x.job j).Hot) : (x.g.client c).given = none := by
  have hfit := h.fits i
  have hstands := h.stands c
  rw [hj] at hfit
  rw [hfit.2.1] at hstands
  rcases hstands.2 with ⟨hnone, -⟩ | ⟨id, -, ⟨k, hk⟩ | hcap⟩
  · exact hnone
  · rcases eq_or_ne k i with rfl | hne
    · cases hj.symm.trans hk
    · exact absurd (by rw [hk]; trivial) (halone k hne)
  · exact absurd hcap (hfit.2.2 _)

/-- `initial_client` and `allocman_cspace_alloc`: the client gets the next id, and the thread a new
slot, in which the caller will be saved. -/
theorem init (h : x.Inv) {sl : ℕ} (hj : x.job i = .got c .init)
    (halone : ∀ j, j ≠ i → ¬ (x.job j).Hot) (hfree : x.used sl = false)
    (he : x' = { x with
      job := Function.update x.job i (.inited c x.g.clientNew)
      slot := Function.update x.slot i sl
      used := Function.update x.used sl true
      g := x.g.initialClient c }) : x'.Inv := by
  have hfit := h.fits i
  rw [hj] at hfit
  obtain ⟨hcaller, hphase, hnocap⟩ := hfit
  have hi := h.live (i := i) (by rw [hj]; nofun)
  have hclient : x'.g.client c = { x.g.client c with given := some x.g.clientNew } := by
    rw [he]
    exact Function.update_self ..
  have hjob : x'.job i = .inited c x.g.clientNew := by
    rw [he]
    exact Function.update_self ..
  have hcap : x'.g.cap = x.g.cap := he ▸ rfl
  have hnocap' : ∀ sl, x'.g.cap sl ≠ some c := hcap ▸ hnocap
  have hslots : x'.Slots := by
    refine h.slots_alloc (i := i) hfree (fun j hl => .inr ?_) (he ▸ rfl) (he ▸ rfl) hcap
    rw [he] at hl
    exact hl
  have hx : Concerns x x' (some i) c := by
    subst he
    refine concerns_thread (fun _ _ => Iff.rfl) rfl (fun j hne => Function.update_of_ne hne ..)
      halone (h.other_of_hot halone hnocap) ?_ (fun d hd => Function.update_of_ne hd ..)
      (fun _ _ _ => Iff.rfl) (fun _ _ _ _ => rfl)
    rw [hj]
    rintro d ⟨⟩
    rfl
  have hstands := h.stands c
  rw [hphase] at hstands
  refine h.thread hx hjob hslots ⟨?_, ?_, hnocap', ?_, ?_⟩ (.inl (he ▸ hi))
    (fun sl hsl => absurd hsl (hnocap' sl)) (fun sl _ hsl => absurd hsl (hnocap' sl)) hclient ?_
    (h.count c) ?_ ?_
  · rw [he]
    exact hcaller
  · rw [hclient]
    exact hphase
  · rw [hclient]
  · -- the new slot was free, so there is no capability in it
    have hslot : x'.slot i = sl := by
      rw [he]
      exact Function.update_self ..
    rw [hcap, hslot]
    rcases hsl : x.g.cap sl with _ | d
    · rfl
    · cases hfree.symm.trans (h.slots.cap sl d hsl)
  · change x'.Stands c (x.g.client c).phase
    rw [hphase]
    refine ⟨?_, .inr ⟨x.g.clientNew, ?_, .inl ⟨i, hjob⟩⟩⟩
    · rw [hclient]
      exact hstands.1
    · rw [hclient]
  · rcases h.barrier with ⟨hall, -⟩ | hopen
    · refine .inl ⟨fun d => ?_, .inr ⟨i, c, _, hjob⟩⟩
      rcases eq_or_ne d c with rfl | hd
      · rw [hclient]
        exact hall d
      · rw [hx.client d hd]
        exact hall d
    · exact absurd (by rw [hphase]; trivial) (hopen c)
  · have htake := h.ids.take (h.given_none hj halone)
    have hsame : (fun d => (x'.g.client d).given) =
        Function.update (fun d => (x.g.client d).given) c (some x.g.clientNew) := by
      funext d
      rcases eq_or_ne d c with rfl | hd
      · rw [hclient, Function.update_self]
      · rw [hx.client d hd, Function.update_of_ne hd]
    have hnew : x'.g.clientNew = x.g.clientNew + 1 := he ▸ rfl
    rw [hsame, hnew]
    exact htake

/-- `TMNT`: the thread exits, and the client is not answered. Its reply capability is never
saved. -/
theorem tmnt (h : x.Inv) (hj : x.job i = .got c .tmnt) (halone : ∀ j, j ≠ i → ¬ (x.job j).Hot)
    (hlive : ∀ j, x'.live j ↔ x.live j ∧ j ≠ i)
    (he : x' = { x with
      live := x'.live
      job := Function.update x.job i .free
      g := x.g.terminate c }) : x'.Inv := by
  have hfit := h.fits i
  rw [hj] at hfit
  obtain ⟨-, hphase, hnocap⟩ := hfit
  have hclient : x'.g.client c = { x.g.client c with phase := .gone } := by
    rw [he]
    exact Function.update_self ..
  have hjob : x'.job i = .free := by
    rw [he]
    exact Function.update_self ..
  have hcap : x'.g.cap = x.g.cap := by rw [he]; rfl
  have hslot : x'.slot = x.slot := by rw [he]
  have hused : x'.used = x.used := by rw [he]
  have hnew : x'.g.clientNew = x.g.clientNew := by rw [he]; rfl
  have hnocap' : ∀ sl, x'.g.cap sl ≠ some c := hcap ▸ hnocap
  have hx : Concerns x x' (some i) c := by
    refine concerns_thread (fun j hne => by rw [hlive j]; simp [hne]) (J := .free) (by rw [he])
      (fun j _ => by rw [hslot]) halone (h.other_of_hot halone hnocap) ?_ (fun d hd => ?_)
      (fun _ _ _ => by rw [hcap]) (fun _ _ _ _ => by rw [he]; rfl)
    · rw [hj]
      rintro d ⟨⟩
      rfl
    · rw [he]
      exact Function.update_of_ne hd ..
  have hcount := h.count c
  have hstands := h.stands c
  rw [hphase] at hcount hstands
  have hw : Welcomed (x'.g.client c) := by
    rw [hclient]
    exact hstands.welcomed nofun
  refine h.thread hx hjob ⟨fun j hl => ?_, fun j k hl hk hsame => ?_, ?_⟩ trivial (.inr rfl)
    (fun sl hsl => absurd hsl (hnocap' sl)) (fun sl _ hsl => absurd hsl (hnocap' sl)) hclient
    (hw.stands nofun) hcount (hx.barrier h ?_ hnew ?_) (hx.ids h (by rw [hclient]) hnew)
  · rw [hused, hslot]
    exact h.slots.used j ((hlive j).mp hl).1
  · rw [hslot] at hsame
    exact h.slots.distinct j k ((hlive j).mp hl).1 ((hlive k).mp hk).1 hsame
  · rw [hcap, hused]
    exact h.slots.cap
  · rw [hclient, hphase]
    exact Iff.rfl
  · rintro j d id ⟨⟩
    rw [hj]
    nofun

/-- `IMMD`: the thread goes on without an answer. The client stays where it is. -/
theorem immd (h : x.Inv) (hj : x.job i = .got c .immd) (halone : ∀ j, j ≠ i → ¬ (x.job j).Hot)
    (he : x' = { x with job := Function.update x.job i .free }) : x'.Inv := by
  have hfit := h.fits i
  rw [hj] at hfit
  obtain ⟨-, hphase, hnocap⟩ := hfit
  have hg : x'.g = x.g := by rw [he]
  have hjob : x'.job i = .free := by
    rw [he]
    exact Function.update_self ..
  have hx : Concerns x x' (some i) c := by
    subst he
    refine concerns_thread (fun _ _ => Iff.rfl) rfl (fun _ _ => rfl) halone
      (h.other_of_hot halone hnocap) ?_ (fun _ _ => rfl) (fun _ _ _ => Iff.rfl)
      (fun _ _ _ _ => rfl)
    rw [hj]
    rintro d ⟨⟩
    rfl
  have hstands := h.stands c
  have hcount := h.count c
  rw [hphase] at hstands
  have hw : Welcomed (x'.g.client c) := by
    rw [hg]
    exact hstands.welcomed nofun
  have hnocap' : ∀ sl, x'.g.cap sl ≠ some c := by rwa [hg]
  refine h.thread hx hjob (he ▸ ⟨h.slots.used, h.slots.distinct, h.slots.cap⟩) trivial (.inr rfl)
    (fun sl hsl => absurd hsl (hnocap' sl)) (fun sl _ hsl => absurd hsl (hnocap' sl)) rfl
    (hw.stands ?_) (by rw [hg]; exact hcount) (hx.barrier h (by rw [hg]) (by rw [hg]) ?_)
    (hx.ids h (by rw [hg]) (by rw [hg]))
  · rw [hg, hphase]
    nofun
  · rintro j d id ⟨⟩
    rw [hj]
    nofun

/-- A client makes a call: `INIT` as its first, and another one when it has the answer to the
last. -/
theorem ask (h : x.Inv) {r : Request}
    (hc : (x.g.client c).phase = .fresh ∧ r = .init ∨ (x.g.client c).phase = .idle ∧ r ≠ .init)
    (he : x' = { x with g := x.g.setClient c ((x.g.client c).ask r) }) : x'.Inv := by
  have hserved : ∀ {r'}, (x.g.client c).phase ≠ .served r' := by
    rintro r' hr'
    rw [hr'] at hc
    rcases hc with ⟨hp, -⟩ | ⟨hp, -⟩ <;> cases hp
  have hnocap : ∀ sl, x.g.cap sl ≠ some c := fun sl hsl => by
    obtain ⟨r', hr'⟩ := h.served_of_cap hsl
    exact hserved hr'
  have hclient : x'.g.client c = (x.g.client c).ask r := by
    rw [he]
    exact Function.update_self ..
  have hx : Concerns x x' none c := by
    subst he
    refine ⟨fun _ _ => Iff.rfl, fun _ _ => rfl, fun _ _ => rfl,
      fun d hd => Function.update_of_ne hd .., fun _ _ _ => Iff.rfl, fun _ _ _ _ => rfl,
      fun _ _ _ => ⟨rfl, rfl⟩, fun j _ hj => ?_, nofun⟩
    obtain ⟨r', hr'⟩ := h.served_of_about hj
    exact hserved hr'
  have hnocap' : ∀ sl, x'.g.cap sl ≠ some c := by
    rw [he]
    exact hnocap
  have hstands := h.stands c
  have hcount := h.count c
  have hphase : (x'.g.client c).phase = .asked r := by rw [hclient]; rfl
  refine h.concerns hx (he ▸ ⟨h.slots.used, h.slots.distinct, h.slots.cap⟩) nofun
    (fun sl hsl => absurd hsl (hnocap' sl)) (fun sl _ hsl => absurd hsl (hnocap' sl)) ?_ ?_
    (hx.barrier h ?_ (he ▸ rfl) nofun) (hx.ids h (by rw [hclient]; rfl) (he ▸ rfl))
  · rw [hphase]
    rcases hc with ⟨hp, rfl⟩ | ⟨hp, hr⟩ <;> rw [hp] at hstands
    · refine ⟨?_, ?_⟩
      · rw [hclient]
        exact hstands.1
      · rw [hclient]
        exact hstands.2
    · have hw : Welcomed (x'.g.client c) := by
        rw [hclient]
        exact hstands
      refine hw.stands ?_
      cases r <;> first | exact absurd rfl hr | nofun
  · rw [hphase, hclient]
    rcases hc with ⟨hp, -⟩ | ⟨hp, -⟩ <;> rw [hp] at hcount <;> exact hcount
  · rw [hphase]
    rcases hc with ⟨hp, rfl⟩ | ⟨hp, hr⟩ <;> rw [hp]
    · exact Iff.rfl
    · cases r <;> first | exact absurd rfl hr | exact Iff.rfl

/-- `seL4_Send` of `server_loop` uses the capability that the thread has saved, and the client goes
on. -/
theorem reply (h : x.Inv) {role : Role} {sl : ℕ} (hj : x.job i = .serving role c sl)
    (halone : ∀ j, j ≠ i → ¬ (x.job j).Hot)
    (he : x' = { x with job := Function.update x.job i .free, g := x.g.send (x.slot i) none }) :
    x'.Inv := by
  have hfit := h.fits i
  rw [hj] at hfit
  obtain ⟨hslot, hcap, hphase⟩ := hfit
  have hg : x'.g = { x.g.setClient c ((x.g.client c).answer none) with
      cap := Function.update x.g.cap sl none } := by
    rw [he]
    change x.g.send (x.slot i) none = _
    rw [hslot, Shared.send_of_cap hcap]
  have hclient : x'.g.client c = (x.g.client c).answer none := by
    rw [hg]
    exact Function.update_self ..
  have hjob : x'.job i = .free := by
    rw [he]
    exact Function.update_self ..
  have hcap' : x'.g.cap = Function.update x.g.cap sl none := by rw [hg]
  have hold : ∀ {sl' d}, x'.g.cap sl' = some d → sl' ≠ sl ∧ x.g.cap sl' = some d := by
    intro sl' d hd
    rw [hcap'] at hd
    rcases eq_or_ne sl' sl with rfl | hne
    · rw [Function.update_self] at hd
      cases hd
    · rw [Function.update_of_ne hne] at hd
      exact ⟨hne, hd⟩
  have hnocap' : ∀ sl', x'.g.cap sl' ≠ some c := fun sl' hsl' =>
    (hold hsl').1 (h.one sl' sl c (hold hsl').2 hcap)
  have hx : Concerns x x' (some i) c := by
    refine concerns_thread (fun _ _ => by rw [he]) (J := .free) (by rw [he])
      (fun _ _ => by rw [he]) halone
      (fun k hk => h.other_of_serving hj (halone k hk) hk) ?_ (fun d hd => ?_)
      (fun sl' d hd => ?_) (fun _ _ _ _ => by rw [hg]; rfl)
    · rw [hj]
      rintro d ⟨⟩
      rfl
    · rw [hg]
      exact Function.update_of_ne hd ..
    · refine ⟨fun hsl' => (hold hsl').2, fun hsl' => ?_⟩
      rw [hcap', Function.update_of_ne, hsl']
      rintro rfl
      exact hd (Option.some.inj (hsl'.symm.trans hcap))
  have hstands := h.stands c
  have hcount := h.count c
  rw [hphase] at hstands hcount
  have hw : Welcomed (x'.g.client c) := by
    obtain ⟨id, hgiven, hinits, hid⟩ := hstands.welcomed not_false
    rw [hclient]
    exact ⟨id, hgiven, by rw [Client.answer, hinits]; rfl, hid⟩
  refine h.thread hx hjob ⟨?_, ?_, fun sl' d hd => ?_⟩ trivial (.inr rfl)
    (fun sl hsl => absurd hsl (hnocap' sl)) (fun sl _ hsl => absurd hsl (hnocap' sl)) hclient
    (hw.stands not_false) hcount (hx.barrier h ?_ (by rw [hg]; rfl) ?_)
    (hx.ids h (by rw [hclient]; rfl) (by rw [hg]; rfl))
  · rw [he]
    exact h.slots.used
  · rw [he]
    exact h.slots.distinct
  · rw [he]
    exact h.slots.cap sl' d (hold hd).2
  · rw [hclient, hphase]
    exact Iff.rfl
  · rintro j d id ⟨⟩
    rw [hj]
    intro hne
    cases hne

/-- What the invariant says does not depend on the buffer, nor on how many changes a client has
made. -/
theorem quiet (h : x.Inv) (hlive : x'.live = x.live) (hjob : x'.job = x.job)
    (hslot : x'.slot = x.slot) (hused : ∀ sl, x.used sl = true → x'.used sl = true)
    (hg : Quiet x.g x'.g) : x'.Inv := by
  have hphase : ∀ c, (x'.g.client c).phase = (x.g.client c).phase := fun c => by rw [hg.client c]
  have hgiven : ∀ c, (x'.g.client c).given = (x.g.client c).given := fun c => by rw [hg.client c]
  have hinits : ∀ c, (x'.g.client c).inits = (x.g.client c).inits := fun c => by rw [hg.client c]
  have hid : ∀ c, (x'.g.client c).id = (x.g.client c).id := fun c => by rw [hg.client c]
  have hasks : ∀ c, (x'.g.client c).asks = (x.g.client c).asks := fun c => by rw [hg.client c]
  have hanswers : ∀ c, (x'.g.client c).answers = (x.g.client c).answers := fun c => by
    rw [hg.client c]
  refine ⟨⟨fun i hi => ?_, fun i j hi hj => ?_, fun sl c hc => ?_⟩, fun i hi => ?_, fun i => ?_,
    fun sl c hc => ?_, fun sl sl' c => ?_, fun c => ?_, fun c => ?_, h.barrier.imp ?_ ?_, ?_⟩
  · rw [hlive] at hi
    rw [hslot]
    exact hused _ (h.slots.used i hi)
  · rw [hlive] at hi hj
    rw [hslot]
    exact h.slots.distinct i j hi hj
  · rw [hg.cap] at hc
    exact hused _ (h.slots.cap sl c hc)
  · rw [hlive] at hi
    rw [hjob]
    exact h.free i hi
  · have hfit := h.fits i
    rw [hjob]
    cases hji : x.job i <;> rw [hji] at hfit
    case free => trivial
    all_goals simpa only [Fits, hg.caller, hg.cap, hphase, hgiven, hslot] using hfit
  · rw [hg.cap] at hc
    simpa only [Origin, hphase, hgiven, hg.replyEps, hjob] using h.origin sl c hc
  · rw [hg.cap]
    exact h.one sl sl' c
  · have hstands := h.stands c
    rw [hphase]
    rcases hp : (x.g.client c).phase with _ | r | r | _ | _ <;> rw [hp] at hstands
    case asked => cases r <;> simpa only [Stands, Welcomed, hgiven, hinits, hid] using hstands
    case served =>
      cases r <;>
        simpa only [Stands, Welcomed, hgiven, hinits, hid, hjob, hg.cap, hg.replyEps] using hstands
    all_goals simpa only [Stands, Welcomed, hgiven, hinits, hid] using hstands
  · rw [hasks, hanswers, hphase]
    exact h.count c
  · simp only [Closed, hphase, hg.clientNew, hjob]
    exact id
  · simp only [Opened, hphase]
    exact id
  · simp only [hgiven, hg.clientNew]
    exact h.ids

/-- A new thread has a slot of its own, with no capability in it, and no job. -/
theorem hire (h : x.Inv) {sl : ℕ} (hnew : ¬ x.live i) (hfree : x.used sl = false)
    (hlive : ∀ j, x'.live j ↔ j = i ∨ x.live j) (hjob : x'.job = x.job)
    (hslot : x'.slot = Function.update x.slot i sl)
    (hused : x'.used = Function.update x.used sl true) (hg : Quiet x.g x'.g) : x'.Inv := by
  have hidle := h.free i hnew
  have hmid : Inv { x' with g := x.g } := by
    refine ⟨h.slots_alloc hfree (fun j hj => (hlive j).mp hj) hslot hused rfl, fun j hj => ?_,
      fun j => ?_, fun sl c hc => ?_, h.one, fun c => ?_, h.count, ?_, h.ids⟩
    · rw [hjob]
      exact h.free j fun hl => hj ((hlive j).mpr (.inr hl))
    · have hfit := h.fits j
      change Fits { x' with g := x.g } j (x'.job j)
      rw [hjob]
      rcases eq_or_ne j i with rfl | hne
      · rw [hidle]
        trivial
      · have hsame : x'.slot j = x.slot j := by rw [hslot, Function.update_of_ne hne]
        cases hji : x.job j <;> rw [hji] at hfit
        case free => trivial
        all_goals simpa only [Fits, hsame] using hfit
    · have horigin := h.origin sl c hc
      simpa only [Origin, hjob] using horigin
    · have hstands := h.stands c
      change Stands { x' with g := x.g } c (x.g.client c).phase
      rcases hp : (x.g.client c).phase with _ | r | r | _ | _ <;> rw [hp] at hstands
      case served => cases r <;> simpa only [Stands, hjob] using hstands
      case asked => cases r <;> exact hstands
      all_goals exact hstands
    · have hbarrier := h.barrier
      simpa only [Closed, Opened, hjob] using hbarrier
  exact hmid.quiet rfl rfl rfl (fun _ hsl => hsl) hg

/-- **The slot is empty** when a `PRODUCER` or `CONSUMER` request is saved: a capability there would
be one of a request that the thread still serves, or of an `INIT` request that has not been
answered. -/
theorem slot_empty (h : x.Inv) {role : Role} (hj : x.job i = .got c (.op role)) :
    x.g.cap (x.slot i) = none := by
  have hfit := h.fits i
  rw [hj] at hfit
  rcases hcap : x.g.cap (x.slot i) with _ | d
  · rfl
  · rcases h.origin _ d hcap with ⟨hd, -⟩ | ⟨k, role', hk⟩
    · rcases h.barrier with ⟨hall, -⟩ | hopen
      · have hearly := hall c
        rw [hfit.2.1] at hearly
        exact hearly.elim
      · exact absurd (by rw [hd]; trivial) (hopen d)
    · have hfitk := h.fits k
      rw [hk] at hfitk
      have hki := h.slots.distinct k i (h.live (by rw [hk]; nofun)) (h.live (by rw [hj]; nofun))
        hfitk.1
      rw [hki, hj] at hk
      cases hk

/-- What `vka_cnode_saveCaller` does to the capabilities of other clients: nothing, when the slot is
empty. -/
theorem cap_save {g : Shared n} {sl : ℕ} (hcaller : g.caller = some c) (hnone : g.cap sl = none)
    {sl' : ℕ} (hd : d ≠ c) : (g.saveCaller sl).cap sl' = some d ↔ g.cap sl' = some d := by
  change Function.update g.cap sl g.caller sl' = some d ↔ _
  rcases eq_or_ne sl' sl with rfl | hne
  · rw [Function.update_self, hcaller, hnone]
    exact ⟨fun he => absurd (Option.some.inj he).symm hd, nofun⟩
  · rw [Function.update_of_ne hne]

/-- Afterwards the capability of the caller is there and nowhere else. -/
theorem cap_save_self {g : Shared n} {sl : ℕ} (hcaller : g.caller = some c)
    (hnocap : ∀ sl, g.cap sl ≠ some c) {sl' : ℕ} :
    (g.saveCaller sl).cap sl' = some c ↔ sl' = sl := by
  change Function.update g.cap sl g.caller sl' = some c ↔ _
  rcases eq_or_ne sl' sl with rfl | hne
  · simp [hcaller]
  · rw [Function.update_of_ne hne]
    exact ⟨fun he => absurd he (hnocap sl'), fun he => absurd he hne⟩

/-- The slots after `vka_cnode_saveCaller` by a thread: a capability is where one was, or in the
slot of the thread. -/
theorem slots_save (h : x.Inv) (hi : x.live i) (hlive : x'.live = x.live)
    (hslot : x'.slot = x.slot) (hused : x'.used = x.used)
    (hcap : ∀ sl d, x'.g.cap sl = some d → sl = x.slot i ∨ x.g.cap sl = some d) : x'.Slots := by
  refine ⟨?_, ?_, fun sl d hd => ?_⟩
  · rw [hlive, hslot, hused]
    exact h.slots.used
  · rw [hlive, hslot]
    exact h.slots.distinct
  · rw [hused]
    rcases hcap sl d hd with rfl | hd
    · exact h.slots.used i hi
    · exact h.slots.cap sl d hd

/-- `vka_cnode_saveCaller` of a `PRODUCER` or `CONSUMER` handler: from now on the thread serves the
client -/
theorem save_exact (h : x.Inv) {role : Role} (hj : x.job i = .got c (.op role))
    (halone : ∀ j, j ≠ i → ¬ (x.job j).Hot)
    (he : x' = { x with
      job := Function.update x.job i (.serving role c (x.slot i))
      g := x.g.saveCaller (x.slot i) }) : x'.Inv := by
  have hfit := h.fits i
  rw [hj] at hfit
  obtain ⟨hcaller, hphase, hnocap⟩ := hfit
  have hnone := h.slot_empty hj
  have hi := h.live (i := i) (by rw [hj]; nofun)
  have hself : ∀ {sl}, x'.g.cap sl = some c ↔ sl = x.slot i := by
    rw [he]
    exact cap_save_self hcaller hnocap
  have hother : ∀ {sl d}, d ≠ c → (x'.g.cap sl = some d ↔ x.g.cap sl = some d) := by
    rw [he]
    exact cap_save hcaller hnone
  have hclient : x'.g.client c = x.g.client c := by rw [he]; rfl
  have hjob : x'.job i = .serving role c (x.slot i) := by rw [he]; exact Function.update_self ..
  have hx : Concerns x x' (some i) c := by
    rw [he] at hother ⊢
    refine concerns_thread (fun _ _ => Iff.rfl) rfl (fun _ _ => rfl) halone
      (h.other_of_hot halone hnocap) ?_ (fun _ _ => rfl) (fun sl d hd => hother hd)
      (fun _ _ _ _ => rfl)
    rw [hj]
    rintro d ⟨⟩
    rfl
  have hslots : x'.Slots := by
    refine h.slots_save hi (by rw [he]) (by rw [he]) (by rw [he]) fun sl d hd => ?_
    rcases eq_or_ne d c with rfl | hdc
    · exact .inl (hself.mp hd)
    · exact .inr ((hother hdc).mp hd)
  have hstands := h.stands c
  rw [hphase] at hstands
  have hw : Welcomed (x'.g.client c) := by
    rw [hclient]
    exact hstands.welcomed nofun
  refine h.thread hx hjob hslots ⟨by rw [he], hself.mpr rfl, hclient ▸ hphase⟩
    (.inl (by rw [he]; exact hi)) (fun sl hsl => ?_)
    (fun sl sl' hsl hsl' => (hself.mp hsl).trans (hself.mp hsl').symm) hclient ?_ (h.count c)
    (hx.barrier h (by rw [hclient]) (by rw [he]; rfl) ?_)
    (hx.ids h (by rw [hclient]) (by rw [he]; rfl))
  · obtain rfl := hself.mp hsl
    exact .inr ⟨i, role, hjob⟩
  · rw [hphase]
    exact hw.stands nofun
  · rintro j d id ⟨⟩
    rw [hj]
    nofun

/-- and goes on to its test, which does not matter for the replies. -/
theorem save (h : x.Inv) {role : Role} {g : Shared n} (hj : x.job i = .got c (.op role))
    (halone : ∀ j, j ≠ i → ¬ (x.job j).Hot) (hg : Quiet (x.g.saveCaller (x.slot i)) g)
    (he : x' = { x with job := Function.update x.job i (.serving role c (x.slot i)), g := g }) :
    x'.Inv := by
  subst he
  exact (h.save_exact hj halone rfl).quiet rfl rfl rfl (fun _ hsl => hsl) hg

/-- When all ids have been given out, everybody has one, since there are as many ids as clients. -/
theorem given_of_all (h : x.Inv) (hnew : n = x.g.clientNew) : ∀ d, (x.g.client d).given ≠ none := by
  intro d hd
  have hlt := h.ids.lt_of_none hd
  rw [Fintype.card_fin] at hlt
  omega

section register

variable {id : ℕ} (h : x.Inv) (hj : x.job i = .inited c id)
  (halone : ∀ j, j ≠ i → ¬ (x.job j).Hot)

include h hj

/-- The capability of the caller is in the slot of the thread, -/
theorem atBarrier_cap {sl : ℕ} : (x.atBarrier i id).g.cap sl = some c ↔ sl = x.slot i := by
  have hfit := h.fits i
  rw [hj] at hfit
  exact cap_save_self hfit.1 hfit.2.2.1

/-- the others are where they were, -/
theorem atBarrier_cap_other {sl : ℕ} (hd : d ≠ c) :
    (x.atBarrier i id).g.cap sl = some d ↔ x.g.cap sl = some d := by
  have hfit := h.fits i
  rw [hj] at hfit
  exact cap_save hfit.1 hfit.2.2.2.2 hd

/-- and no client has two. -/
theorem atBarrier_one {sl sl' : ℕ} (hsl : (x.atBarrier i id).g.cap sl = some d)
    (hsl' : (x.atBarrier i id).g.cap sl' = some d) : sl = sl' := by
  rcases eq_or_ne d c with rfl | hd
  · exact ((h.atBarrier_cap hj).mp hsl).trans ((h.atBarrier_cap hj).mp hsl').symm
  · exact h.one sl sl' d ((h.atBarrier_cap_other hj hd).mp hsl)
      ((h.atBarrier_cap_other hj hd).mp hsl')

/-- A client whose `INIT` is being handled has not been answered, so nobody has. -/
theorem early_of_inited (d : Fin n) : (x.g.client d).phase.Early := by
  have hfit := h.fits i
  rw [hj] at hfit
  rcases h.barrier with ⟨hall, -⟩ | hopen
  · exact hall d
  · exact absurd (by rw [hfit.2.1]; trivial) (hopen c)

/-- A client with an id waits for the answer. -/
theorem served_init (hd : (x.g.client d).given ≠ none) :
    (x.g.client d).phase = .served .init := by
  have hstands := h.stands d
  have hearly := h.early_of_inited hj d
  rcases hp : (x.g.client d).phase with _ | r | r | _ | _ <;> rw [hp] at hstands hearly
  case fresh => exact absurd hstands.1 hd
  case asked =>
    cases r with
    | init => exact absurd hstands.1 hd
    | _ => exact hearly.elim
  case served =>
    cases r with
    | init => rfl
    | _ => exact hearly.elim
  all_goals exact hearly.elim

include halone

theorem atBarrier_concerns : Concerns x (x.atBarrier i id) (some i) c := by
  have hfit := h.fits i
  rw [hj] at hfit
  refine concerns_thread (fun _ _ => Iff.rfl) rfl (fun _ _ => rfl) halone
    (h.other_of_hot halone hfit.2.2.1) ?_ (fun _ _ => rfl)
    (fun sl d hd => h.atBarrier_cap_other hj hd) (fun d id' hd hid' => ?_)
  · rw [hj]
    rintro d ⟨⟩
    rfl
  · refine Function.update_of_ne ?_ ..
    rintro rfl
    exact hd (h.ids.inj _ _ _ hid' hfit.2.2.2.1)

/-- **The barrier stays closed** while clients are missing: the handler is done, and its client
waits. -/
theorem register_closed (hnew : n ≠ x.g.clientNew) : (x.atBarrier i id).Inv := by
  have hi := h.live (i := i) (by rw [hj]; nofun)
  have hx := h.atBarrier_concerns hj halone
  have hself : ∀ {sl}, (x.atBarrier i id).g.cap sl = some c ↔ sl = x.slot i := h.atBarrier_cap hj
  have hfit := h.fits i
  rw [hj] at hfit
  obtain ⟨-, hphase, -, hgiven, -⟩ := hfit
  have heps : (x.atBarrier i id).g.replyEps id = x.slot i := Function.update_self ..
  have hslots : (x.atBarrier i id).Slots := by
    refine h.slots_save hi rfl rfl rfl fun sl d hd => ?_
    rcases eq_or_ne d c with rfl | hdc
    · exact .inl (hself.mp hd)
    · exact .inr ((h.atBarrier_cap_other hj hdc).mp hd)
  have hstands := h.stands c
  rw [hphase] at hstands
  refine h.thread hx (Function.update_self ..) hslots trivial (.inr rfl) (fun sl hsl => ?_)
    (fun _ _ => h.atBarrier_one hj) rfl ?_ (h.count c) (.inl ⟨h.early_of_inited hj, .inl ?_⟩)
    h.ids
  · exact .inl ⟨hphase, id, hgiven, heps.trans (hself.mp hsl).symm⟩
  · change (x.atBarrier i id).Stands c (x.g.client c).phase
    rw [hphase]
    exact ⟨hstands.1, .inr ⟨id, hgiven, .inr (heps ▸ hself.mpr rfl)⟩⟩
  · have hle := h.ids.le
    rw [Fintype.card_fin] at hle
    exact lt_of_le_of_ne hle (Ne.symm hnew)

/-- All clients have come: their capabilities are where `reply_eps` says, that of the last one
included. -/
theorem atBarrier_eps (hgiven : ∀ d, (x.g.client d).given ≠ none) {id' : ℕ}
    (hd : (x.g.client d).given = some id') :
    (x.atBarrier i id).g.cap ((x.atBarrier i id).g.replyEps id') = some d := by
  have hx := h.atBarrier_concerns hj halone
  rcases eq_or_ne d c with rfl | hdc
  · have hfit := h.fits i
    rw [hj] at hfit
    obtain rfl := Option.some.inj (hd.symm.trans hfit.2.2.2.1)
    exact (h.atBarrier_cap hj).mpr (Function.update_self ..)
  · rw [hx.eps d id' hdc hd, h.atBarrier_cap_other hj hdc]
    have hstands := h.stands d
    rw [h.served_init hj (hgiven d)] at hstands
    rcases hstands.2 with ⟨hnone, -⟩ | ⟨id'', hid'', ⟨k, hk⟩ | hcap⟩
    · exact absurd hnone (hgiven d)
    · -- the thread is the only one in between, and not with `d`
      rcases eq_or_ne k i with rfl | hki
      · cases hj.symm.trans hk
        exact absurd rfl hdc
      · exact absurd (by rw [hk]; trivial) (halone k hki)
    · rw [Option.some.inj (hd.symm.trans hid'')]
      exact hcap

/-- **The barrier opens**: everybody is answered, with the id that was given to it. -/
theorem registerClient_eq (hnew : n = x.g.clientNew) :
    ∃ idOf : Fin n → ℕ, (∀ d, (x.g.client d).given = some (idOf d)) ∧
      (x.g.saveCaller (x.slot i)).registerClient id (x.slot i) =
        { x.g.saveCaller (x.slot i) with
          replyEps := Function.update x.g.replyEps id (x.slot i)
          client := fun d => (x.g.client d).answer (some (initMessage (idOf d)))
          cap := fun _ => none } := by
  have hgiven := h.given_of_all hnew
  choose idOf hidOf using fun d => Option.ne_none_iff_exists'.mp (hgiven d)
  have hcap : ∀ d, (x.g.saveCaller (x.slot i)).cap
      (Function.update x.g.replyEps id (x.slot i) (idOf d)) = some d := fun d =>
    h.atBarrier_eps hj halone hgiven (hidOf d)
  have hrange : ∀ k, k < n ↔ ∃ d, idOf d = k := by
    intro k
    constructor
    · intro hk
      obtain ⟨d, hd⟩ := h.ids.surj (by rw [Fintype.card_fin, ← hnew]) (hnew ▸ hk)
      exact ⟨d, Option.some.inj ((hidOf d).symm.trans hd)⟩
    · rintro ⟨d, rfl⟩
      exact hnew ▸ h.ids.lt d _ (hidOf d)
  have hinj : Function.Injective idOf := fun d e hde =>
    h.ids.inj d e (idOf d) (hidOf d) (hde ▸ hidOf e)
  exact ⟨idOf, hidOf, Shared.registerClient_open (g := x.g.saveCaller (x.slot i)) hnew (Fin.pos c)
    hinj hrange hcap fun sl d hd => h.atBarrier_one hj hd (hcap d)⟩

/-- Nobody has anything to do then: a request that is served would be one of a client that has been
answered. -/
theorem free_of_inited (k : ℕ) : Function.update x.job i .free k = .free := by
  rcases eq_or_ne k i with rfl | hki
  · exact Function.update_self ..
  · rw [Function.update_of_ne hki]
    have hcold := halone k hki
    have hfit := h.fits k
    rcases hk : x.job k with _ | ⟨d, r⟩ | ⟨d, id⟩ | ⟨role, d, sl⟩ <;> rw [hk] at hcold hfit
    · exact absurd trivial hcold
    · exact absurd trivial hcold
    · have hearly := h.early_of_inited hj d
      rw [hfit.2.2] at hearly
      exact hearly.elim

theorem register_open (hnew : n = x.g.clientNew)
    (he : x' = { x with
      job := Function.update x.job i .free
      g := (x.g.saveCaller (x.slot i)).registerClient id (x.slot i) }) : x'.Inv := by
  obtain ⟨idOf, hidOf, hg⟩ := h.registerClient_eq hj halone hnew
  rw [hg] at he
  have hserved : ∀ d, (x.g.client d).phase = .served .init := fun d =>
    h.served_init hj (h.given_of_all hnew d)
  have hclient : ∀ d, x'.g.client d = (x.g.client d).answer (some (initMessage (idOf d))) :=
    fun d => by rw [he]
  have hnone : ∀ sl d, x'.g.cap sl ≠ some d := fun sl d => by rw [he]; nofun
  have hfree : ∀ k, x'.job k = .free := fun k => by
    rw [he]
    exact h.free_of_inited hj halone k
  refine ⟨⟨?_, ?_, fun sl d hd => absurd hd (hnone sl d)⟩, fun k _ => hfree k, fun k => ?_,
    fun sl d hd => absurd hd (hnone sl d), fun sl _ d hd => absurd hd (hnone sl d), fun d => ?_,
    fun d => ?_, .inr fun d => ?_, ?_⟩
  · rw [he]
    exact h.slots.used
  · rw [he]
    exact h.slots.distinct
  · rw [hfree]
    trivial
  · have hstands := h.stands d
    rw [hserved d] at hstands
    rw [hclient]
    refine ⟨idOf d, ?_, ?_, ?_⟩ <;> rw [hclient]
    · exact hidOf d
    · simp [Client.answer, hstands.1]
    · simp [Client.answer, initMessage]
  · have hcount := h.count d
    rw [hserved d] at hcount
    rw [hclient]
    exact hcount
  · rw [hclient]
    nofun
  · rw [he]
    exact h.ids

/-- The end of the `INIT` handler, whether or not the barrier opens. -/
theorem register (he : x' = { x with
      job := Function.update x.job i .free
      g := (x.g.saveCaller (x.slot i)).registerClient id (x.slot i) }) : x'.Inv := by
  by_cases hnew : n = x.g.clientNew
  · exact h.register_open hj halone hnew he
  · have hclosed : (x.g.saveCaller (x.slot i)).registerClient id (x.slot i) =
        (x.atBarrier i id).g := if_neg fun hb => hnew (eq_of_beq hb)
    rw [he, hclosed]
    exact h.register_closed hj halone hnew

end register

/-- **Every step at the desk keeps the invariant.** -/
theorem next (h : x.Inv) (hx : GreenServer.Handles x x') : x'.Inv := by
  cases hx with
  | quiet hlive hjob hslot hused hg => exact h.quiet hlive hjob hslot hused hg
  | hire hnew hfree hlive hjob hslot hused hg => exact h.hire hnew hfree hlive hjob hslot hused hg
  | recv hi hj halone hc he => exact h.recv hi hj halone hc he
  | init hj halone hfree he => exact h.init hj halone hfree he
  | tmnt hj halone hlive he => exact h.tmnt hj halone hlive he
  | immd hj halone he => exact h.immd hj halone he
  | register hj halone he => exact h.register hj halone he
  | save hj halone hg he => exact h.save hj halone hg he
  | reply hj halone he => exact h.reply hj halone he
  | ask hc he => exact h.ask hc he

/-- Before the first request the invariant holds: nobody has come, and there are no capabilities. -/
theorem initial {limit : ℤ} (hlive : ∀ i, ¬ x.live i) (hjob : ∀ i, x.job i = .free)
    (hg : x.g = .initialClientPool n limit) : x.Inv where
  slots := by
    refine ⟨fun i hi => absurd hi (hlive i), fun i _ hi => absurd hi (hlive i), ?_⟩
    rw [hg]
    nofun
  free i _ := hjob i
  fits i := by
    rw [hjob]
    trivial
  origin := by
    rw [hg]
    nofun
  one := by
    rw [hg]
    nofun
  stands c := by
    have hc : x.g.client c = .new := by rw [hg]; rfl
    rw [hc]
    exact ⟨by rw [hc]; rfl, by rw [hc]; rfl⟩
  count := by
    rw [hg]
    exact fun _ => rfl
  barrier := by
    rcases Nat.eq_zero_or_pos n with rfl | hn
    · exact .inr fun c => c.elim0
    · refine .inl ⟨?_, .inl ?_⟩ <;> rw [hg]
      · exact fun _ => trivial
      · exact hn
  ids := by
    rw [hg]
    exact .zero

end Inv

end GreenDesk

end GreenLib
