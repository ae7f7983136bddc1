import GreenLib.Clients
import GreenLib.Run
import GreenLib.State
import GreenLib.Total
import Mathlib.Data.Fintype.Card
import Mathlib.Data.Fintype.EquivFin

/-!
# The `INIT` rendezvous with kernel threads

The other half of the server in the build `SEL4_THREAD`: each client first sends `INIT`, and nobody
is answered before all have done so. The handler of an `INIT` takes the next client id, saves the
reply capability of its caller in a new slot, stores the slot in `reply_eps` and tests the barrier.
If all ids have been taken, it answers all clients, in the order of their ids, through `reply_eps`.

The kernel may switch between handlers at any point, and one step here is one access to what they
share; only the increment in `initial_client` is taken to be atomic. So a handler may find the
barrier open before the others have stored their slots, and then sends to an empty entry; and
several handlers may find it open, and then send through capabilities that have been used. The
clients get one answer each because whoever stores a slot tests the barrier after that: see
`Inv.pending`.

Each `INIT` gets a handler of its own here. A thread that handles several of them one after the
other is a special case of that.
-/

namespace GreenLib

/-- Where the handler of an `INIT` is; `i` is its `client_id`, a local variable that it keeps to the
end. -/
inductive InitPc : Type where
  /-- the request has not been received -/
  | sent
  /-- at `initial_client` -/
  | takeId
  /-- at `allocman_cspace_alloc` -/
  | alloc (i : ℕ)
  /-- at `vka_cnode_saveCaller` -/
  | save (i slot : ℕ)
  /-- at the store to `reply_eps[client_id]` -/
  | store (i slot : ℕ)
  /-- at `client_barrier` -/
  | barrier (i : ℕ)
  /-- at the load of `reply_eps[j]` -/
  | load (i j : ℕ)
  /-- at the `seL4_Send` to client `j`, through the loaded slot -/
  | send (i j slot : ℕ)
  /-- `process_message` has returned -/
  | done (i : ℕ)
  deriving DecidableEq

/-- The handlers of the `n` clients, and what they share: the pool of clients and the capability
space. -/
structure Sel4Init (n : ℕ) : Type where
  /-- the handler of each client -/
  pc : Fin n → InitPc
  /-- `client_new`; `client_num` is `n` -/
  clientNew : ℕ
  /-- `reply_eps` -/
  replyEps : ℕ → ℕ
  /-- the client whose reply capability is in a slot -/
  cap : ℕ → Option (Fin n)
  /-- history: the handler a slot was allocated for -/
  owner : ℕ → Option (Fin n)
  /-- history: the message registers of the answers each client has received -/
  inbox : Fin n → List (ℕ × ℕ)

namespace Sel4Init

inductive Label (n : ℕ) : Type where
  /-- a thread receives the `INIT` of `c` -/
  | receive (c : Fin n)
  /-- `allocman_cspace_alloc` returns `slot` -/
  | alloc (c : Fin n) (slot : ℕ)
  | go (c : Fin n)

variable {n : ℕ}

def goTo (s : Sel4Init n) (c : Fin n) (p : InitPc) : Sel4Init n :=
  { s with pc := Function.update s.pc c p }

/-- `seL4_Send`: the capability is used up. Slot 0 is the null capability, and a send through it, or
through an empty slot, does nothing. -/
def reply (s : Sel4Init n) (slot : ℕ) (m : ℕ × ℕ) : Sel4Init n :=
  if slot = 0 then s
  else match s.cap slot with
  | none => s
  | some c =>
    { s with
      cap := Function.update s.cap slot none
      inbox := Function.update s.inbox c (s.inbox c ++ [m]) }

@[simp] theorem reply_pc (s : Sel4Init n) (slot : ℕ) (m : ℕ × ℕ) :
    (s.reply slot m).pc = s.pc := by
  rw [reply]
  split
  · rfl
  · split <;> rfl

@[simp] theorem reply_clientNew (s : Sel4Init n) (slot : ℕ) (m : ℕ × ℕ) :
    (s.reply slot m).clientNew = s.clientNew := by
  rw [reply]
  split
  · rfl
  · split <;> rfl

@[simp] theorem reply_replyEps (s : Sel4Init n) (slot : ℕ) (m : ℕ × ℕ) :
    (s.reply slot m).replyEps = s.replyEps := by
  rw [reply]
  split
  · rfl
  · split <;> rfl

/-- A capability is used once, so that a second send through its slot does nothing. -/
theorem reply_empty (s : Sel4Init n) (slot : ℕ) (m : ℕ × ℕ) :
    slot = 0 ∨ (s.reply slot m).cap slot = none := by
  rw [reply]
  split
  · exact .inl ‹_›
  · split
    · exact .inr ‹_›
    · exact .inr (Function.update_self ..)

/-- One step of the handler of `c` on its own: one access to what the handlers share. -/
def go (s : Sel4Init n) (c : Fin n) : Except Fault (Sel4Init n) :=
  match s.pc c with
  | .takeId => .ok { s.goTo c (.alloc s.clientNew) with clientNew := s.clientNew + 1 }
  | .save i slot => .ok { s.goTo c (.store i slot) with cap := Function.update s.cap slot (some c) }
  | .store i slot =>
    if i < clientMax then
      .ok { s.goTo c (.barrier i) with replyEps := Function.update s.replyEps i slot }
    else .error .bounds
  | .barrier i => .ok (s.goTo c (if n = s.clientNew then .load i 0 else .done i))
  | .load i j => if j < clientMax then .ok (s.goTo c (.send i j (s.replyEps j))) else .error .bounds
  | .send i j slot =>
    -- the first answer is sent by `process_message`, the others by `process_message_multicast`
    .ok ((s.reply slot (initMessage j)).goTo c (if j + 1 < n then .load i (j + 1) else .done i))
  | _ => .error .disabled

/-- One step of the system, with the slot that the allocator hands out in the label. -/
def step (s : Sel4Init n) : Label n → Except Fault (Sel4Init n)
  | .receive c => if s.pc c = .sent then .ok (s.goTo c .takeId) else .error .disabled
  | .alloc c slot =>
    match s.pc c with
    | .alloc i =>
      if slot ≠ 0 ∧ s.owner slot = none then
        .ok { s.goTo c (.save i slot) with owner := Function.update s.owner slot (some c) }
      else .error .disabled
    | _ => .error .disabled
  | .go c => s.go c

/-- No `INIT` has been received, and the entries of `reply_eps` are null capabilities. -/
def initial (n : ℕ) : Sel4Init n where
  pc _ := .sent
  clientNew := 0
  replyEps _ := 0
  cap _ := none
  owner _ := none
  inbox _ := []

/-- **The runs** with `n` clients, in which the handlers take their steps in any order. -/
def runs (n : ℕ) : Lts (Sel4Init n) (Label n) where
  init s := s = initial n
  step s l s' := s.step l = .ok s'

/-! ## What a step can be -/

/-- The steps, with what each of them finds and changes, without what would be an error. -/
inductive Acts (s : Sel4Init n) (c : Fin n) : Sel4Init n → Prop where
  | receive (h : s.pc c = .sent) : Acts s c (s.goTo c .takeId)
  | takeId (h : s.pc c = .takeId) :
    Acts s c { s.goTo c (.alloc s.clientNew) with clientNew := s.clientNew + 1 }
  | alloc {i slot : ℕ} (h : s.pc c = .alloc i) (h0 : slot ≠ 0) (hfree : s.owner slot = none) :
    Acts s c { s.goTo c (.save i slot) with owner := Function.update s.owner slot (some c) }
  | save {i slot : ℕ} (h : s.pc c = .save i slot) :
    Acts s c { s.goTo c (.store i slot) with cap := Function.update s.cap slot (some c) }
  | store {i slot : ℕ} (h : s.pc c = .store i slot) :
    Acts s c { s.goTo c (.barrier i) with replyEps := Function.update s.replyEps i slot }
  | opened {i : ℕ} (h : s.pc c = .barrier i) (ho : n = s.clientNew) :
    Acts s c (s.goTo c (.load i 0))
  | closed {i : ℕ} (h : s.pc c = .barrier i) (ho : n ≠ s.clientNew) : Acts s c (s.goTo c (.done i))
  | load {i j : ℕ} (h : s.pc c = .load i j) : Acts s c (s.goTo c (.send i j (s.replyEps j)))
  | send {i j slot : ℕ} (h : s.pc c = .send i j slot) :
    Acts s c ((s.reply slot (initMessage j)).goTo c
      (if j + 1 < n then .load i (j + 1) else .done i))

variable {s s' : Sel4Init n} {c d : Fin n}

theorem go_acts (he : s.go c = .ok s') : s.Acts c s' := by
  rw [go] at he
  split at he
  case h_1 h => exact Except.ok.inj he ▸ .takeId h
  case h_2 h => exact Except.ok.inj he ▸ .save h
  case h_3 h =>
    split at he
    · exact Except.ok.inj he ▸ .store h
    · cases he
  case h_4 h =>
    split at he
    · rename_i ho
      exact Except.ok.inj he ▸ .opened h ho
    · rename_i ho
      exact Except.ok.inj he ▸ .closed h ho
  case h_5 h =>
    split at he
    · exact Except.ok.inj he ▸ .load h
    · cases he
  case h_6 h => exact Except.ok.inj he ▸ .send h
  case h_7 => cases he

theorem step_acts {l : Label n} (he : s.step l = .ok s') : ∃ c, s.Acts c s' := by
  cases l with
  | receive c =>
    simp only [step] at he
    split at he
    · rename_i h
      exact ⟨c, Except.ok.inj he ▸ .receive h⟩
    · cases he
  | alloc c slot =>
    simp only [step] at he
    split at he
    · rename_i h
      split at he
      · rename_i hs
        exact ⟨c, Except.ok.inj he ▸ .alloc h hs.1 hs.2⟩
      · cases he
    · cases he
  | go c => exact ⟨c, go_acts he⟩

end Sel4Init

/-! ## The invariant -/

namespace InitPc

/-- The client id the handler has taken, from `initial_client` on. -/
def id : InitPc → Option ℕ
  | .sent | .takeId => none
  | .alloc i | .save i _ | .store i _ | .barrier i | .load i _ | .send i _ _ | .done i => some i

/-- The entry of `reply_eps` that the handler has filled. It is the one of its client id. -/
def stored : InitPc → Option ℕ
  | .barrier i | .load i _ | .send i _ _ | .done i => some i
  | _ => none

theorem id_of_stored {p : InitPc} {i : ℕ} (h : p.stored = some i) : p.id = some i := by
  cases p <;> simp_all [stored, id]

end InitPc

namespace Sel4Init

variable {n : ℕ} {s s' : Sel4Init n} {c d : Fin n}

/-! ### Ids -/

/-- The ids after one handler has moved are those before, but for its own. -/
theorem ids_update (pc : Fin n → InitPc) (c : Fin n) (q : InitPc) :
    (fun d => (Function.update pc c q d).id) = Function.update (fun d => (pc d).id) c q.id :=
  Function.comp_update InitPc.id pc c q

/-- A handler moves and keeps its id, or the lack of one. So the ids are numbered as before. -/
theorem ids_same {pc : Fin n → InitPc} {m : ℕ} {p q : InitPc}
    (h : Numbered (fun d => (pc d).id) m) (hp : pc c = p) (hid : q.id = p.id) :
    Numbered (fun d => (Function.update pc c q d).id) m := by
  have hsame : q.id = (pc c).id := by rw [hid, hp]
  rw [ids_update, hsame, Function.update_eq_self c fun d => (pc d).id]
  exact h

/-! ### Slots and answers -/

/-- The slot of client `c` is in `reply_eps[i]`. Its capability is there and `c` has no answer, or
it has been used and `c` has one. -/
structure Posted (s : Sel4Init n) (c : Fin n) (i : ℕ) : Prop where
  slot : s.replyEps i ≠ 0
  owner : s.owner (s.replyEps i) = some c
  once : s.cap (s.replyEps i) = some c ∧ s.inbox c = [] ∨
    s.cap (s.replyEps i) = none ∧ s.inbox c = [initMessage i]

/-- What the place of the handler of `c` says about its slot and its answer. Behind the barrier, all
ids have been taken. -/
def Fits (s : Sel4Init n) (c : Fin n) : InitPc → Prop
  | .sent | .takeId | .alloc _ => s.inbox c = []
  | .save _ slot => s.inbox c = [] ∧ slot ≠ 0 ∧ s.owner slot = some c
  | .store _ slot => s.inbox c = [] ∧ slot ≠ 0 ∧ s.owner slot = some c ∧ s.cap slot = some c
  | .barrier i | .done i => s.Posted c i
  | .load i j => s.Posted c i ∧ s.clientNew = n ∧ j < n
  | .send i j slot => s.Posted c i ∧ s.clientNew = n ∧ j < n ∧ (slot = 0 ∨ slot = s.replyEps j)

/-- The handler at `p` has still to test the barrier, or to answer client id `i` through the slot
that is there now. -/
def Answers (s : Sel4Init n) (i : ℕ) : InitPc → Prop
  | .load _ j => j ≤ i
  | .send _ j slot => j < i ∨ j = i ∧ slot = s.replyEps i
  | .done _ => False
  | _ => True

structure Inv (s : Sel4Init n) : Prop where
  fits : ∀ c, s.Fits c (s.pc c)
  capOwner : ∀ slot c, s.cap slot = some c → s.owner slot = some c
  stored : ∀ i, s.replyEps i ≠ 0 → ∃ c, (s.pc c).stored = some i
  ids : Numbered (fun d => (s.pc d).id) s.clientNew
  answered : ∀ c, s.inbox c ≠ [] → s.clientNew = n
  /-- as long as a stored slot has not been used, somebody is going to use it -/
  pending : ∀ c i, (s.pc c).stored = some i → s.inbox c = [] → ∃ d, s.Answers i (s.pc d)

/-- A step that is none of client `d`'s business: its slots, its capability and its answers stay,
and so do the entries of `reply_eps`. -/
structure Keeps (s s' : Sel4Init n) (d : Fin n) : Prop where
  inbox : s'.inbox d = s.inbox d
  opened : s.clientNew = n → s'.clientNew = n
  eps : ∀ j, s.replyEps j ≠ 0 → s'.replyEps j = s.replyEps j
  slots : ∀ slot, s.owner slot = some d → s'.owner slot = some d ∧ s'.cap slot = s.cap slot

theorem Posted.keep {i : ℕ} (h : s.Posted d i) (hk : Keeps s s' d) : s'.Posted d i := by
  have heps := hk.eps i h.slot
  obtain ⟨howner, hcap⟩ := hk.slots _ h.owner
  constructor
  · rw [heps]
    exact h.slot
  · rw [heps]
    exact howner
  · rw [heps, hcap, hk.inbox]
    exact h.once

theorem Fits.keep {p : InitPc} (h : s.Fits d p) (hk : Keeps s s' d) : s'.Fits d p := by
  cases p with
  | sent => exact hk.inbox.trans h
  | takeId => exact hk.inbox.trans h
  | alloc => exact hk.inbox.trans h
  | save => exact ⟨hk.inbox.trans h.1, h.2.1, (hk.slots _ h.2.2).1⟩
  | store =>
    obtain ⟨hi, h0, ho, hc⟩ := h
    exact ⟨hk.inbox.trans hi, h0, (hk.slots _ ho).1, (hk.slots _ ho).2.trans hc⟩
  | barrier => exact Posted.keep h hk
  | done => exact Posted.keep h hk
  | load => exact ⟨h.1.keep hk, hk.opened h.2.1, h.2.2⟩
  | send i j slot =>
    obtain ⟨hp, hn, hj, hs⟩ := h
    refine ⟨hp.keep hk, hk.opened hn, hj, ?_⟩
    rcases eq_or_ne slot 0 with h0 | h0
    · exact .inl h0
    · have hs := hs.resolve_left h0
      exact .inr (hs.trans (hk.eps j (hs ▸ h0)).symm)

/-- An entry that is going to be answered still is when others change, since the handler has loaded
or will load the same slot. -/
theorem Answers.keep {i : ℕ} {p : InitPc} (h : s.Answers i p)
    (heps : s'.replyEps i = s.replyEps i) : s'.Answers i p := by
  cases p with
  | send k j slot =>
    rcases h with h | ⟨rfl, h⟩
    · exact .inl h
    · exact .inr ⟨rfl, h.trans heps.symm⟩
  | _ => exact h

namespace Inv

/-- The handler of `c` moves to `q`, and the others are not concerned: their places still fit. -/
theorem fits_goTo (h : s.Inv) {q : InitPc} (hpc : s'.pc = Function.update s.pc c q)
    (hk : ∀ d, d ≠ c → Keeps s s' d) (hq : s'.Fits c q) (d : Fin n) : s'.Fits d (s'.pc d) := by
  rw [hpc]
  rcases eq_or_ne d c with rfl | hne
  · rwa [Function.update_self]
  · rw [Function.update_of_ne hne]
    exact (h.fits d).keep (hk d hne)

/-- Entries stay filled by a handler that is behind its store, when `c` moves on. -/
theorem stored_goTo (h : s.Inv) {q : InitPc} (hpc : s'.pc = Function.update s.pc c q)
    (heps : s'.replyEps = s.replyEps) (hq : ∀ i, (s.pc c).stored = some i → q.stored = some i)
    (i : ℕ) (hi : s'.replyEps i ≠ 0) : ∃ d, (s'.pc d).stored = some i := by
  rw [heps] at hi
  obtain ⟨d, hd⟩ := h.stored i hi
  refine ⟨d, ?_⟩
  rw [hpc]
  rcases eq_or_ne d c with rfl | hne
  · rw [Function.update_self]
    exact hq i hd
  · rwa [Function.update_of_ne hne]

/-- Who was going to be answered still is, by `c` or by the others, when `c` moves on. -/
theorem answers_goTo {i : ℕ} {q : InitPc} (hpc : s'.pc = Function.update s.pc c q)
    (heps : s'.replyEps i = s.replyEps i) (hq : s.Answers i (s.pc c) → s'.Answers i q)
    (h : ∃ d, s.Answers i (s.pc d)) : ∃ d, s'.Answers i (s'.pc d) := by
  obtain ⟨d, hd⟩ := h
  refine ⟨d, ?_⟩
  rw [hpc]
  rcases eq_or_ne d c with rfl | hne
  · rw [Function.update_self]
    exact hq hd
  · rw [Function.update_of_ne hne]
    exact hd.keep heps

/-- In a step of `c` that fills no entry, who has stored a slot had stored it. -/
theorem stored_back {q : InitPc} {i : ℕ} (hpc : s'.pc = Function.update s.pc c q)
    (hst : q.stored = (s.pc c).stored) (h : (s'.pc d).stored = some i) :
    (s.pc d).stored = some i := by
  rw [hpc] at h
  rcases eq_or_ne d c with rfl | hne
  · rwa [Function.update_self, hst] at h
  · rwa [Function.update_of_ne hne] at h

/-- A step of `c` that keeps all data: what is left to show is that `c` fits its new place and still
answers whom it was to answer. -/
theorem goTo (h : s.Inv) {p q : InitPc} (hp : s.pc c = p) (hid : q.id = p.id)
    (hst : q.stored = p.stored) (hfit : s.Fits c q)
    (hans : ∀ d i, (s.pc d).stored = some i → s.inbox d = [] → s.Answers i p → s.Answers i q) :
    (s.goTo c q).Inv where
  fits := h.fits_goTo rfl (fun d _ => ⟨rfl, id, fun _ _ => rfl, fun _ ho => ⟨ho, rfl⟩⟩)
    (hfit.keep ⟨rfl, id, fun _ _ => rfl, fun _ ho => ⟨ho, rfl⟩⟩)
  capOwner := h.capOwner
  stored := h.stored_goTo rfl rfl fun i hi => by rw [hst, ← hp, hi]
  ids := ids_same h.ids hp hid
  answered := h.answered
  pending d i hd hin := by
    have hd := stored_back rfl (by rw [hp, hst]) hd
    refine answers_goTo (s := s) rfl rfl (fun ha => ?_) (h.pending d i hd hin)
    rw [hp] at ha
    exact (hans d i hd hin ha).keep rfl

theorem takeId (h : s.Inv) (hp : s.pc c = .takeId) :
    Inv { s.goTo c (.alloc s.clientNew) with clientNew := s.clientNew + 1 } := by
  have hlt : s.clientNew < n := by
    simpa using h.ids.lt_of_none (c := c) (by rw [hp]; rfl)
  have hin : s.inbox c = [] := by simpa only [hp, Fits] using h.fits c
  constructor
  · refine h.fits_goTo rfl (fun d _ => ⟨rfl, ?_, fun _ _ => rfl, fun _ ho => ⟨ho, rfl⟩⟩) hin
    exact fun hn => absurd hn hlt.ne
  · exact h.capOwner
  · exact h.stored_goTo rfl rfl fun i hi => by simp [hp, InitPc.stored] at hi
  · have htake := h.ids.take (c := c) (by rw [hp]; rfl)
    exact (ids_update s.pc c (.alloc s.clientNew)).symm ▸ htake
  · exact fun d hd => absurd (h.answered d hd) hlt.ne
  · intro d i hd hempty
    refine answers_goTo (s := s) rfl rfl (fun _ => trivial) (h.pending d i ?_ hempty)
    exact stored_back rfl (by rw [hp]; rfl) hd

theorem alloc (h : s.Inv) {i slot : ℕ} (hp : s.pc c = .alloc i) (h0 : slot ≠ 0)
    (hfree : s.owner slot = none) :
    Inv { s.goTo c (.save i slot) with owner := Function.update s.owner slot (some c) } := by
  have hin : s.inbox c = [] := by simpa only [hp, Fits] using h.fits c
  have hother : ∀ {x d}, s.owner x = some d → Function.update s.owner slot (some c) x = some d := by
    intro x d hx
    rwa [Function.update_of_ne]
    rintro rfl
    cases hfree.symm.trans hx
  constructor
  · refine h.fits_goTo rfl
      (fun d _ => ⟨rfl, id, fun _ _ => rfl, fun _ ho => ⟨hother ho, rfl⟩⟩) ?_
    exact ⟨hin, h0, Function.update_self ..⟩
  · exact fun x d hx => hother (h.capOwner x d hx)
  · exact h.stored_goTo rfl rfl fun j hj => by simp [hp, InitPc.stored] at hj
  · exact ids_same h.ids hp rfl
  · exact h.answered
  · intro d j hd hempty
    refine answers_goTo (s := s) rfl rfl (fun _ => trivial) (h.pending d j ?_ hempty)
    exact stored_back rfl (by rw [hp]; rfl) hd

theorem save (h : s.Inv) {i slot : ℕ} (hp : s.pc c = .save i slot) :
    Inv { s.goTo c (.store i slot) with cap := Function.update s.cap slot (some c) } := by
  obtain ⟨hin, h0, howner⟩ : s.inbox c = [] ∧ slot ≠ 0 ∧ s.owner slot = some c := by
    simpa only [hp, Fits] using h.fits c
  constructor
  · refine h.fits_goTo rfl (fun d hd => ⟨rfl, id, fun _ _ => rfl, fun x ho => ⟨ho, ?_⟩⟩) ?_
    · refine Function.update_of_ne ?_ ..
      rintro rfl
      exact hd (Option.some.inj (ho.symm.trans howner))
    · exact ⟨hin, h0, howner, Function.update_self ..⟩
  · intro x d (hx : Function.update s.cap slot (some c) x = some d)
    rcases eq_or_ne x slot with rfl | hne
    · rwa [Function.update_self, ← howner] at hx
    · rw [Function.update_of_ne hne] at hx
      exact h.capOwner x d hx
  · exact h.stored_goTo rfl rfl fun j hj => by simp [hp, InitPc.stored] at hj
  · exact ids_same h.ids hp rfl
  · exact h.answered
  · intro d j hd hempty
    refine answers_goTo (s := s) rfl rfl (fun _ => trivial) (h.pending d j ?_ hempty)
    exact stored_back rfl (by rw [hp]; rfl) hd

/-- The store to `reply_eps`: the entry was empty, since nobody else has this id. -/
theorem store (h : s.Inv) {i slot : ℕ} (hp : s.pc c = .store i slot) :
    Inv { s.goTo c (.barrier i) with replyEps := Function.update s.replyEps i slot } := by
  obtain ⟨hin, h0, howner, hcap⟩ :
      s.inbox c = [] ∧ slot ≠ 0 ∧ s.owner slot = some c ∧ s.cap slot = some c := by
    simpa only [hp, Fits] using h.fits c
  have hmine : ∀ {d}, (s.pc d).id = some i → d = c := fun hd =>
    h.ids.inj _ _ i hd (by rw [hp]; rfl)
  have hempty : s.replyEps i = 0 := by
    by_contra hne
    obtain ⟨d, hd⟩ := h.stored i hne
    obtain rfl := hmine (InitPc.id_of_stored hd)
    rw [hp] at hd
    cases hd
  have hkept : ∀ j, s.replyEps j ≠ 0 → Function.update s.replyEps i slot j = s.replyEps j := by
    intro j hj
    refine Function.update_of_ne ?_ ..
    rintro rfl
    exact hj hempty
  constructor
  · refine h.fits_goTo rfl (fun d _ => ⟨rfl, id, hkept, fun _ ho => ⟨ho, rfl⟩⟩) ?_
    constructor <;> simp only [Sel4Init.goTo, Function.update_self]
    · exact h0
    · exact howner
    · exact .inl ⟨hcap, hin⟩
  · exact h.capOwner
  · intro j (hj : Function.update s.replyEps i slot j ≠ 0)
    rcases eq_or_ne j i with rfl | hne
    · exact ⟨c, by simp only [Sel4Init.goTo, Function.update_self]; rfl⟩
    · rw [Function.update_of_ne hne] at hj
      obtain ⟨d, hd⟩ := h.stored j hj
      refine ⟨d, ?_⟩
      have hdc : d ≠ c := by
        rintro rfl
        rw [hp] at hd
        cases hd
      simpa only [Sel4Init.goTo, Function.update_of_ne hdc] using hd
  · exact ids_same h.ids hp rfl
  · exact h.answered
  · exact fun d j _ _ => ⟨c, by simp only [Sel4Init.goTo, Function.update_self]; trivial⟩

/-- The barrier is closed: somebody has no id yet, and will test it after the slot of `c` has been
stored. -/
theorem closed (h : s.Inv) {i : ℕ} (hp : s.pc c = .barrier i) (hn : n ≠ s.clientNew) :
    (s.goTo c (.done i)).Inv := by
  obtain ⟨e, he⟩ : ∃ e, (s.pc e).id = none := by
    by_contra hall
    exact hn (by simpa using (h.ids.eq_of_all fun e he => hall ⟨e, he⟩).symm)
  have hec : e ≠ c := by
    rintro rfl
    rw [hp] at he
    cases he
  have hfit : s.Posted c i := by simpa only [hp, Fits] using h.fits c
  constructor
  · refine h.fits_goTo rfl (fun d _ => ⟨rfl, id, fun _ _ => rfl, fun _ ho => ⟨ho, rfl⟩⟩) ?_
    exact hfit.keep ⟨rfl, id, fun _ _ => rfl, fun _ ho => ⟨ho, rfl⟩⟩
  · exact h.capOwner
  · exact h.stored_goTo rfl rfl fun j hj => by rwa [hp] at hj
  · exact ids_same h.ids hp rfl
  · exact h.answered
  · intro d j _ _
    refine ⟨e, ?_⟩
    simp only [Sel4Init.goTo, Function.update_of_ne hec]
    cases hpe : s.pc e <;> rw [hpe] at he <;> trivial

theorem posted (h : s.Inv) {i : ℕ} (hd : (s.pc d).stored = some i) : s.Posted d i := by
  have hfit := h.fits d
  cases hpd : s.pc d <;> rw [hpd] at hd hfit <;> cases hd
  · exact hfit
  · exact hfit.1
  · exact hfit.1
  · exact hfit

/-- A send through `slot`, which the handler has loaded from `reply_eps[j]`: nothing happens, or the
client with id `j` gets its answer. -/
theorem reply_cases (h : s.Inv) {j slot : ℕ} (hs : slot = 0 ∨ slot = s.replyEps j) (m : ℕ × ℕ) :
    s.reply slot m = s ∧ (slot = 0 ∨ s.cap slot = none) ∨
      ∃ e, slot = s.replyEps j ∧ (s.pc e).stored = some j ∧ s.cap slot = some e ∧ s.inbox e = [] ∧
        s.reply slot m = { s with
          cap := Function.update s.cap slot none
          inbox := Function.update s.inbox e [m] } := by
  rcases eq_or_ne slot 0 with rfl | h0
  · exact .inl ⟨by rw [reply, if_pos rfl], .inl rfl⟩
  rcases hcap : s.cap slot with _ | e
  · exact .inl ⟨by simp only [reply, if_neg h0, hcap], .inr rfl⟩
  · obtain rfl := hs.resolve_left h0
    obtain ⟨d, hd⟩ := h.stored j h0
    have hpost := h.posted hd
    obtain rfl : e = d := Option.some.inj ((h.capOwner _ e hcap).symm.trans hpost.owner)
    rcases hpost.once with ⟨-, hin⟩ | ⟨hnone, -⟩
    · exact .inr ⟨e, rfl, hd, rfl, hin, by simp only [reply, if_neg h0, hcap, hin, List.nil_append]⟩
    · cases hcap.symm.trans hnone

/-- The client with id `j` gets its answer, by whoever sends through its slot first. -/
theorem answer (h : s.Inv) {j : ℕ} (hn : s.clientNew = n) (hd : (s.pc d).stored = some j)
    (hcap : s.cap (s.replyEps j) = some d) (hin : s.inbox d = []) :
    Inv { s with
      cap := Function.update s.cap (s.replyEps j) none
      inbox := Function.update s.inbox d [initMessage j] } := by
  have hpost := h.posted hd
  have hkeep : ∀ e, e ≠ d → Keeps s { s with
      cap := Function.update s.cap (s.replyEps j) none
      inbox := Function.update s.inbox d [initMessage j] } e := by
    refine fun e he => ⟨Function.update_of_ne he .., id, fun _ _ => rfl, fun x ho => ⟨ho, ?_⟩⟩
    refine Function.update_of_ne ?_ ..
    rintro rfl
    exact he (Option.some.inj (ho.symm.trans hpost.owner))
  have hposted : Posted { s with
      cap := Function.update s.cap (s.replyEps j) none
      inbox := Function.update s.inbox d [initMessage j] } d j :=
    ⟨hpost.slot, hpost.owner, .inr ⟨Function.update_self .., Function.update_self ..⟩⟩
  constructor
  · intro e
    rcases eq_or_ne e d with rfl | he
    · have hfit := h.fits e
      change Fits _ e (s.pc e)
      cases hpe : s.pc e <;> rw [hpe] at hd hfit <;> cases hd
      · exact hposted
      · exact ⟨hposted, hfit.2⟩
      · exact ⟨hposted, hfit.2⟩
      · exact hposted
    · exact (h.fits e).keep (hkeep e he)
  · intro x e (hx : Function.update s.cap (s.replyEps j) none x = some e)
    rcases eq_or_ne x (s.replyEps j) with rfl | hne
    · rw [Function.update_self] at hx
      cases hx
    · rw [Function.update_of_ne hne] at hx
      exact h.capOwner x e hx
  · exact h.stored
  · exact h.ids
  · exact fun _ _ => hn
  · intro e i he (hempty : Function.update s.inbox d [initMessage j] e = [])
    have hne : e ≠ d := by
      rintro rfl
      rw [Function.update_self] at hempty
      cases hempty
    rw [Function.update_of_ne hne] at hempty
    obtain ⟨w, hw⟩ := h.pending e i he hempty
    exact ⟨w, hw.keep rfl⟩

/-- The send to client id `j`, and the next one. After the last one nobody is left whom the handler
was to answer. -/
theorem send (h : s.Inv) {i j slot : ℕ} (hp : s.pc c = .send i j slot) :
    ((s.reply slot (initMessage j)).goTo c
      (if j + 1 < n then .load i (j + 1) else .done i)).Inv := by
  obtain ⟨-, hn, hj, hslot⟩ : s.Posted c i ∧ s.clientNew = n ∧ j < n ∧
      (slot = 0 ∨ slot = s.replyEps j) := by
    simpa only [hp, Fits] using h.fits c
  have hinv : (s.reply slot (initMessage j)).Inv := by
    rcases h.reply_cases hslot (initMessage j) with ⟨he, -⟩ | ⟨e, rfl, hst, hcap, hin, he⟩
    · rwa [he]
    · rw [he]
      exact h.answer hn hst hcap hin
  have hp' : (s.reply slot (initMessage j)).pc c = .send i j slot := by rw [reply_pc, hp]
  have hn' : (s.reply slot (initMessage j)).clientNew = n := by rw [reply_clientNew, hn]
  have hpost := hinv.posted (d := c) (i := i) (by rw [hp']; rfl)
  -- an entry that is still to be answered comes later
  have hlater : ∀ d k, ((s.reply slot (initMessage j)).pc d).stored = some k →
      (s.reply slot (initMessage j)).inbox d = [] →
      (s.reply slot (initMessage j)).Answers k (.send i j slot) → j < k ∧ k < n := by
    intro d k hd hempty hans
    have hk := hinv.ids.lt d k (InitPc.id_of_stored hd)
    rw [hn'] at hk
    refine ⟨hans.resolve_right ?_, hk⟩
    rintro ⟨rfl, he⟩
    obtain ⟨h0, -, hcap | hfull⟩ := hinv.posted hd
    · rw [← he] at h0 hcap
      cases ((s.reply_empty slot _).resolve_left h0).symm.trans hcap.1
    · cases hempty.symm.trans hfull.2
  split
  · rename_i hlt
    refine hinv.goTo hp' rfl rfl ⟨hpost, hn', hlt⟩ fun d k hd hempty hans => ?_
    exact (hlater d k hd hempty hans).1
  · rename_i hlt
    refine hinv.goTo hp' rfl rfl hpost fun d k hd hempty hans => ?_
    have := hlater d k hd hempty hans
    omega

/-- **Every step keeps the invariant**, whichever handler takes it. -/
theorem acts (h : s.Inv) (ha : s.Acts c s') : s'.Inv := by
  have hfit := h.fits c
  cases ha with
  | receive hp =>
    rw [hp] at hfit
    exact h.goTo hp rfl rfl hfit fun _ _ _ _ _ => trivial
  | takeId hp => exact h.takeId hp
  | alloc hp h0 hfree => exact h.alloc hp h0 hfree
  | save hp => exact h.save hp
  | store hp => exact h.store hp
  | opened hp ho =>
    rw [hp] at hfit
    exact h.goTo hp rfl rfl ⟨hfit, ho.symm, c.pos⟩ fun _ i _ _ _ => Nat.zero_le i
  | closed hp ho => exact h.closed hp ho
  | load hp =>
    rw [hp] at hfit
    obtain ⟨hpost, hn, hj⟩ := hfit
    refine h.goTo hp rfl rfl ⟨hpost, hn, hj, .inr rfl⟩ fun _ i _ _ hle => ?_
    rcases Nat.lt_or_eq_of_le hle with hlt | rfl
    · exact .inl hlt
    · exact .inr ⟨rfl, rfl⟩
  | send hp => exact h.send hp

theorem initial (n : ℕ) : (initial n).Inv where
  fits _ := rfl
  capOwner _ _ h := nomatch h
  stored _ h := absurd rfl h
  ids := .zero
  answered _ h := absurd rfl h
  pending _ _ h := nomatch h

theorem of_reach (hs : Reach (runs n) s) : s.Inv := by
  induction hs with
  | init h₀ => exact h₀ ▸ initial n
  | step _ he ih =>
    obtain ⟨c, ha⟩ := step_acts he
    exact ih.acts ha

end Inv

/-! ## What the rendezvous guarantees -/

/-- **The rendezvous**, in a state of a run, as the clients and the handlers see it. -/
structure Rendezvous (s : Sel4Init n) : Prop where
  /-- nobody is answered before all requests have been received -/
  together : ∀ c, s.inbox c ≠ [] → ∀ d, s.pc d ≠ .sent
  /-- no two clients get the same id, and all ids are below `n` -/
  ids : ∀ c i, (s.pc c).id = some i → i < n ∧ ∀ d, (s.pc d).id = some i → d = c
  /-- a client gets at most one answer, with its own id -/
  once : ∀ c, s.inbox c = [] ∨ ∃ i, (s.pc c).id = some i ∧ s.inbox c = [initMessage i]
  /-- when all handlers have finished, all ids have been assigned -/
  allIds : (∀ c, ∃ i, s.pc c = .done i) → ∀ i < n, ∃ c, s.pc c = .done i
  /-- and every client has its answer -/
  answered : (∀ c, ∃ i, s.pc c = .done i) → ∀ c i, s.pc c = .done i → s.inbox c = [initMessage i]

/-- The accesses to `reply_eps` are in bounds, if the table has an entry for every client. -/
theorem Inv.in_bounds (h : s.Inv) (hmax : n ≤ clientMax) (l : Label n) :
    s.step l ≠ .error .bounds := by
  intro he
  cases l with
  | receive c =>
    simp only [step] at he
    split at he <;> cases he
  | alloc c slot =>
    simp only [step] at he
    split at he
    · split at he <;> cases he
    · cases he
  | go c =>
    have hfit := h.fits c
    have hlt := h.ids.lt c
    have hle : s.clientNew ≤ n := by simpa using h.ids.le
    simp only [step, go] at he
    split at he
    case h_3 i slot hp =>
      rw [hp] at hlt
      rw [if_pos (lt_of_lt_of_le (hlt i rfl) (hle.trans hmax))] at he
      cases he
    case h_5 i j hp =>
      rw [hp] at hfit
      rw [if_pos (lt_of_lt_of_le hfit.2.2 hmax)] at he
      cases he
    all_goals cases he

theorem Inv.rendezvous (h : s.Inv) : s.Rendezvous where
  together c hc d hd := by
    have hlt : s.clientNew < n := by
      simpa using h.ids.lt_of_none (c := d) (by rw [hd]; rfl)
    exact hlt.ne (h.answered c hc)
  ids c i hi := by
    have hle : s.clientNew ≤ n := by simpa using h.ids.le
    exact ⟨lt_of_lt_of_le (h.ids.lt c i hi) hle, fun d hd => h.ids.inj d c i hd hi⟩
  once c := by
    have hfit := h.fits c
    have honce : ∀ {i}, s.Posted c i → s.inbox c = [] ∨ s.inbox c = [initMessage i] := fun hp =>
      hp.once.imp (·.2) (·.2)
    cases hp : s.pc c <;> rw [hp] at hfit
    case sent => exact .inl hfit
    case takeId => exact .inl hfit
    case alloc => exact .inl hfit
    case save => exact .inl hfit.1
    case store => exact .inl hfit.1
    case barrier => exact (honce hfit).imp_right fun hin => ⟨_, rfl, hin⟩
    case load => exact (honce hfit.1).imp_right fun hin => ⟨_, rfl, hin⟩
    case send => exact (honce hfit.1).imp_right fun hin => ⟨_, rfl, hin⟩
    case done => exact (honce hfit).imp_right fun hin => ⟨_, rfl, hin⟩
  allIds hall i hi := by
    have hn : s.clientNew = n := by
      rw [h.ids.eq_of_all fun c hc => ?_, Fintype.card_fin]
      obtain ⟨j, hj⟩ := hall c
      rw [hj] at hc
      cases hc
    obtain ⟨c, hc⟩ := h.ids.surj (by rw [hn, Fintype.card_fin]) (hn ▸ hi)
    obtain ⟨j, hj⟩ := hall c
    rw [hj] at hc
    exact ⟨c, Option.some.inj hc ▸ hj⟩
  answered hall c i hc := by
    have hst : (s.pc c).stored = some i := by rw [hc]; rfl
    rcases (h.posted hst).once with ⟨-, hin⟩ | ⟨-, hin⟩
    · -- the slot of `c` would still be waiting for somebody
      obtain ⟨d, hd⟩ := h.pending c i hst hin
      obtain ⟨j, hj⟩ := hall d
      rw [hj] at hd
      exact hd.elim
    · exact hin

end Sel4Init

end GreenLib
