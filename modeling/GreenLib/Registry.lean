import GreenLib.DList
import GreenLib.Effects

/-!
# The registry of primitives

`sync_prim_initial` links every new primitive behind the last one, from `pool->sync_prim_start` to
`pool->sync_prim_end`, and `sync_prim_destroy` unlinks it again. In the build with
`GREEN_VERY_FAST` nothing else writes the fields `pre` and `next`, so the registry is a doubly
linked list of the live primitives in the order of their creation, whatever else the threads do
(`registry_correct`).
-/

namespace GreenLib

open State

/-- The registry lists the allocated primitives: it is a doubly linked list of exactly those. -/
structure Registered (s : State) (order : List Addr) : Prop where
  list : IsDList s.primPre s.primNext s.syncPrim order
  live : ∀ p, p ∈ order ↔ s.kind p ≠ none

namespace Registered

variable {s s' : State} {order : List Addr} {p : Addr} {k : PrimKind}

/-- **`sync_prim_initial`** on a block that is not in use succeeds and appends it to the
registry. -/
theorem initial (h : Registered s order) (hp : s.kind p = none) :
    ∃ s', s.syncPrimInitial p k = .ok s' ∧ Registered s' (order ++ [p]) ∧
      s'.kind = Function.update s.kind p (some k) := by
  have hnot : p ∉ order := fun hm => (h.live p).mp hm hp
  have hlive : ∀ a, a ∈ order ++ [p] ↔ Function.update s.kind p (some k) a ≠ none := by
    intro a
    by_cases ha : a = p
    · simp [ha]
    · simp [ha, h.live]
  rcases List.eq_nil_or_concat order with rfl | ⟨xs, e, rfl⟩
  · have hq : s.syncPrim = ⟨none, none⟩ := h.list.ends
    refine ⟨_, by simp only [syncPrimInitial, hq, if_true]; rfl, ⟨?_, hlive⟩, rfl⟩
    exact h.list.concat hnot (by simp) (by simp) (by nofun) (by nofun) rfl
  · rw [List.concat_eq_append] at *
    have hstop : s.syncPrim.stop = some e := by rw [h.list.ends, List.getLast?_concat]
    have hstart : s.syncPrim.start ≠ none := by
      rw [Ne, h.list.start_eq_none]
      simp
    have hpe : p ≠ e := by
      rintro rfl
      exact hnot (by simp)
    refine ⟨_, by simp only [syncPrimInitial, hstart, if_false, hstop]; rfl, ⟨?_, hlive⟩, rfl⟩
    refine h.list.concat hnot (by simp) ?_ ?_ ?_ ?_
    · simp [Function.update_of_ne hpe]
    · intro a ha
      have hap : a ≠ p := fun he => hnot (he ▸ ha)
      simp [Function.update_of_ne hap]
    · intro a ha
      have hap : a ≠ p := fun he => hnot (he ▸ ha)
      rw [List.getLast?_concat]
      by_cases hae : a = e
      · simp [hae]
      · simp [Function.update_of_ne hae, Function.update_of_ne hap, Ne.symm hae]
    · rw [h.list.ends]
      cases xs <;> rfl

end Registered

/-- **The four cases of `sync_prim_destroy`**: the only, the first, the last and an inner
primitive. -/
theorem syncPrimUnlink_eq {s : State} {ys zs : List Addr} {p : Addr}
    (h : IsDList s.primPre s.primNext s.syncPrim (ys ++ p :: zs)) :
    ∃ s', s.syncPrimUnlink p = .ok s' ∧ s'.kind = s.kind ∧ s'.primPre p = none ∧
      s'.primNext p = none ∧ IsDList s'.primPre s'.primNext s'.syncPrim (ys ++ zs) := by
  have hnd := h.nodup
  obtain ⟨hpre, hnext⟩ := h.links ys p zs rfl
  have hne : ∀ a ∈ ys ++ zs, a ≠ p := by
    rintro a ha rfl
    rw [List.nodup_append, List.nodup_cons] at hnd
    rcases List.mem_append.mp ha with ha | ha
    · exact hnd.2.2 a ha a (by simp) rfl
    · exact hnd.2.1.1 ha
  have hstop : ∀ z zs', zs = z :: zs' → s.syncPrim.stop ≠ some p := by
    rintro z zs rfl he
    rw [h.ends, List.getLast?_append_cons, List.getLast?_cons_cons] at he
    exact hne p (List.mem_append_right _ (List.mem_of_getLast? he)) rfl
  have hstart : ∀ ys' y, ys = ys' ++ [y] → s.syncPrim.start ≠ some p := by
    rintro ys y rfl he
    rw [h.ends] at he
    have hmem : p ∈ ys ++ [y] := by
      cases ys <;> simp_all
    exact hne p (List.mem_append_left _ hmem) rfl
  rcases List.eq_nil_or_concat ys with rfl | ⟨ys, y, rfl⟩
  · have hfirst : s.syncPrim.start = some p := by rw [h.ends]; rfl
    rcases zs with _ | ⟨z, zs⟩
    · refine ⟨{ s with syncPrim := ⟨none, none⟩ }, ?_, rfl, hpre, hnext, .nil _ _⟩
      have hlast : s.syncPrim.stop = some p := by rw [h.ends]; rfl
      simp only [syncPrimUnlink, hfirst, hlast, and_self, if_true]
    · have hzp : z ≠ p := hne z (by simp)
      refine ⟨{ s with
        syncPrim := ⟨some z, s.syncPrim.stop⟩
        primPre := Function.update s.primPre z none
        primNext := Function.update s.primNext p none }, ?_, rfl, ?_, ?_, h.remove ?_ ?_ ?_⟩
      · simp only [syncPrimUnlink, hfirst, hstop z zs rfl, and_false, if_false, if_true, hnext]
        rfl
      · simpa [Function.update_of_ne (Ne.symm hzp)] using hpre
      · simp
      · intro a ha
        simp [Function.update_of_ne (hne a ha)]
      · intro a ha
        by_cases haz : a = z
        · simp [haz]
        · simp [Function.update_of_ne haz, Ne.symm haz]
      · rw [h.ends]
        simp
  · rw [List.concat_eq_append] at *
    have hyp : y ≠ p := hne y (by simp)
    rw [List.getLast?_concat] at hpre
    rcases zs with _ | ⟨z, zs⟩
    · have hlast : s.syncPrim.stop = some p := by rw [h.ends, List.getLast?_concat]
      refine ⟨{ s with
        syncPrim := ⟨s.syncPrim.start, some y⟩
        primNext := Function.update s.primNext y none
        primPre := Function.update s.primPre p none }, ?_, rfl, ?_, ?_, h.remove ?_ ?_ ?_⟩
      · simp only [syncPrimUnlink, hstart ys y rfl, false_and, if_false, hlast, if_true, hpre]
        rfl
      · simp
      · simpa [Function.update_of_ne (Ne.symm hyp)] using hnext
      · intro a ha
        rw [List.getLast?_concat]
        by_cases hay : a = y
        · simp [hay]
        · simp [Function.update_of_ne hay, Ne.symm hay]
      · intro a ha
        simp [Function.update_of_ne (hne a ha)]
      · rw [h.ends]
        simp
    · have hzp : z ≠ p := hne z (by simp)
      refine ⟨{ s with
        primNext := Function.update (Function.update s.primNext y (some z)) p none
        primPre := Function.update (Function.update s.primPre z (some y)) p none },
        ?_, rfl, by simp, by simp, h.remove ?_ ?_ ?_⟩
      · simp only [syncPrimUnlink, hstart ys y rfl, false_and, if_false, hstop z zs rfl, hpre,
          hnext]
        rfl
      · intro a ha
        rw [List.getLast?_concat]
        by_cases hay : a = y
        · simp [hay, Function.update_of_ne hyp]
        · simp [Function.update_of_ne (hne a ha), Function.update_of_ne hay, Ne.symm hay]
      · intro a ha
        rw [List.getLast?_concat]
        by_cases haz : a = z
        · simp [haz, Function.update_of_ne hzp]
        · simp [Function.update_of_ne (hne a ha), Function.update_of_ne haz, Ne.symm haz]
      · rw [h.ends]
        simp

namespace Registered

variable {s s' : State} {order : List Addr} {p : Addr} {k : PrimKind}

theorem erase_mid {ys zs : List Addr} (hnd : (ys ++ p :: zs).Nodup) :
    (ys ++ p :: zs).erase p = ys ++ zs := by
  have hp : p ∉ ys := fun hm => (List.nodup_append.mp hnd).2.2 p hm p (by simp) rfl
  rw [List.erase_append_right _ hp, List.erase_cons_head]

/-- **`sync_prim_destroy`** on a registered primitive: both assertions hold, and the primitive is
gone from the list. -/
theorem destroy (h : Registered s order) (hp : p ∈ order) :
    ∃ s', s.syncPrimDestroy p = .ok s' ∧
      IsDList s'.primPre s'.primNext s'.syncPrim (order.erase p) ∧ s'.kind = s.kind := by
  obtain ⟨ys, zs, rfl⟩ := List.append_of_mem hp
  obtain ⟨s', hs', hkind, hpre, hnext, hlist⟩ := syncPrimUnlink_eq h.list
  rw [erase_mid h.list.nodup]
  refine ⟨s', ?_, hlist, hkind⟩
  rw [syncPrimDestroy, hs']
  change (do check (s'.primPre p == none); check (s'.primNext p == none); .ok s') = _
  rw [hpre, hnext]
  rfl

end Registered

/-! ## Calls that leave the registry alone -/

/-- The two states agree in the registry and in the table of primitives. -/
structure SamePrims (s s' : State) : Prop where
  kind : s'.kind = s.kind
  pre : s'.primPre = s.primPre
  next : s'.primNext = s.primNext
  ends : s'.syncPrim = s.syncPrim

namespace SamePrims

variable {s s₁ s' : State}

theorem refl (s : State) : SamePrims s s := ⟨rfl, rfl, rfl, rfl⟩

theorem trans (h : SamePrims s s₁) (h' : SamePrims s₁ s') : SamePrims s s' :=
  ⟨h'.kind.trans h.kind, h'.pre.trans h.pre, h'.next.trans h.next, h'.ends.trans h.ends⟩

theorem of_schedules (h : Schedules s s') : SamePrims s s' := by
  obtain ⟨_, _, _, _, _, _, _, _, _, _, _, rfl⟩ := h
  exact ⟨rfl, rfl, rfl, rfl⟩

theorem threadCreate {al : Alloc} {id : ℕ} (he : s.threadCreate al = .ok (s', id)) :
    SamePrims s s' := by
  cases threadCreate_creates he <;> exact ⟨rfl, rfl, rfl, rfl⟩

theorem threadExit {tr : Transfer} (he : s.threadExit = .ok (s', tr)) : SamePrims s s' := by
  obtain ⟨cur, j, hs⟩ := threadExit_eq he
  have hremove : SamePrims s ({ s with joinable := j }.removeThread cur) := ⟨rfl, rfl, rfl, rfl⟩
  exact hremove.trans (of_schedules hs)

theorem deleteJoinBlock {b new : Addr} (he : s.deleteJoinBlock b new = .ok s') :
    SamePrims s s' := by
  obtain ⟨_, -, he⟩ := bind_eq_ok he
  obtain ⟨_, -, he⟩ := bind_eq_ok he
  split at he
  · cases he
  · exact Except.ok.inj he ▸ .refl _
  · obtain ⟨_, -, he⟩ := bind_eq_ok he
    split at he
    · cases he
    · exact Except.ok.inj he ▸ ⟨rfl, rfl, rfl, rfl⟩

theorem threadJoinEnter {al : Alloc} {id : ℕ} {q : Option (Addr × Addr)}
    (he : s.threadJoinEnter al id = .ok (s', q)) : SamePrims s s' := by
  obtain ⟨_, -, he⟩ := bind_eq_ok he
  obtain ⟨cur, -, he⟩ := bind_eq_ok he
  obtain ⟨_, -, he⟩ := bind_eq_ok he
  obtain ⟨q, -, he⟩ := bind_eq_ok he
  rcases q with _ | new
  · simp only at he
    split at he
    · cases he
    · obtain ⟨rfl, -⟩ := Prod.mk.inj (Except.ok.inj he)
      exact .refl _
  obtain ⟨b, -, he⟩ := bind_eq_ok he
  rcases b with _ | b
  · obtain ⟨rfl, -⟩ := Prod.mk.inj (Except.ok.inj he)
    exact .refl _
  obtain ⟨run, -, he⟩ := bind_eq_ok he
  obtain ⟨s₁, hs₁, he⟩ := bind_eq_ok he
  obtain ⟨rfl, -⟩ := Prod.mk.inj (Except.ok.inj he)
  obtain ⟨_, -, hs₁⟩ := bind_eq_ok hs₁
  exact Except.ok.inj hs₁ ▸ ⟨rfl, rfl, rfl, rfl⟩

theorem threadJoinTurn {cur new : Addr} {id : ℕ} {tu : Turn}
    (he : s.threadJoinTurn cur new id = .ok (s', tu)) : SamePrims s s' := by
  obtain ⟨b, -, he⟩ := bind_eq_ok he
  split at he
  · obtain ⟨s₁, hs₁, he⟩ := bind_eq_ok he
    obtain ⟨rfl, -⟩ := Prod.mk.inj (Except.ok.inj he)
    exact (deleteJoinBlock hs₁).trans ⟨rfl, rfl, rfl, rfl⟩
  · split at he
    · obtain ⟨⟨s₁, tr⟩, hs₁, he⟩ := bind_eq_ok he
      obtain ⟨rfl, -⟩ := Prod.mk.inj (Except.ok.inj he)
      exact of_schedules (.threadResume hs₁)
    · obtain ⟨⟨s₁, tr⟩, hs₁, he⟩ := bind_eq_ok he
      obtain ⟨rfl, -⟩ := Prod.mk.inj (Except.ok.inj he)
      exact of_schedules (.threadYield hs₁)
    · cases he

theorem cspaceAlloc {al : Alloc} (he : s.cspaceAlloc al = .ok s') : SamePrims s s' := by
  obtain ⟨_, -, he⟩ := bind_eq_ok he
  obtain ⟨_, -, he⟩ := bind_eq_ok he
  split at he
  · cases he
  · exact Except.ok.inj he ▸ ⟨rfl, rfl, rfl, rfl⟩

end SamePrims

/-- **Frame rule.** The invariant reads the fields of the registry and the kinds of the blocks, and
nothing else. -/
theorem Registered.frame {s s' : State} {order : List Addr} (h : Registered s order)
    (hs : SamePrims s s') : Registered s' order := by
  refine ⟨?_, ?_⟩
  · rw [hs.pre, hs.next, hs.ends]
    exact h.list
  · rw [hs.kind]
    exact h.live

/-! ## Runs -/

section Runs

variable {U G A E : Type}

/-- The block that a step turned into a primitive, if there is one: it had no kind before and has
one now. -/
def bornPrims (s s' : State) : Label A E → List Addr
  | .call _ al => al.prim.toList.filter fun p => (s.kind p).isNone && (s'.kind p).isSome
  | _ => []

/-- The primitives in the order of their creation: a step drops the ones it frees and appends the
one it creates. -/
def creationOrder (s s' : State) (l : Label A E) (order : List Addr) : List Addr :=
  order.filter (fun p => (s'.kind p).isSome) ++ bornPrims s s' l

/-- The runs of a program, with the creation order of the live primitives kept beside. -/
def registryRuns (P : Program U G A E) : Lts (Mach U G × List Addr) (Label A E) where
  init x := P.runs.init x.1 ∧ x.2 = []
  step x l x' := P.runs.step x.1 l x'.1 ∧ x'.2 = creationOrder x.1.st x'.1.st l x.2

/-- What the registry of the state `s` owes to the live primitives `order`: both directions of the
walk list them, in the order of their creation. -/
structure RegistryCorrect (s : State) (order : List Addr) : Prop where
  /-- the live primitives, each once -/
  live : ∀ p, p ∈ order ↔ s.kind p ≠ none
  nodup : order.Nodup
  /-- following `next` from the start yields the live primitives in creation order and stops -/
  forward : ∀ n, order.length ≤ n → chase s.primNext n s.syncPrim.start = order
  /-- the walk ends at `sync_prim_end` -/
  stop : s.syncPrim.stop = order.getLast?
  /-- following `pre` from the end is the same walk backwards -/
  backward : ∀ n, order.length ≤ n → chase s.primPre n s.syncPrim.stop = order.reverse
  /-- `pre` mirrors `next` -/
  mirror : ∀ p ∈ order, ∀ q ∈ order, s.primNext p = some q ↔ s.primPre q = some p
  start_null : s.syncPrim.start = none ↔ ∀ p, s.kind p = none
  stop_null : s.syncPrim.stop = none ↔ ∀ p, s.kind p = none
  /-- both assertions of `sync_prim_destroy` hold, whichever live primitive is destroyed -/
  destroy : ∀ p, s.kind p ≠ none → ∃ s', s.syncPrimDestroy p = .ok s'

/-- A step that creates and destroys no primitive leaves the order as it is. -/
theorem Registered.same {s s' : State} {l : Label A E} {order : List Addr}
    (h : Registered s order) (hs : SamePrims s s') :
    Registered s' (creationOrder s s' l order) := by
  have hborn : bornPrims s s' l = [] := by
    cases l with
    | call act al => simp [bornPrims, hs.kind]
    | _ => rfl
  have hkeep : order.filter (fun p => (s'.kind p).isSome) = order := by
    rw [List.filter_eq_self]
    intro p hp
    rw [hs.kind]
    exact Option.isSome_iff_ne_none.mpr ((h.live p).mp hp)
  rw [creationOrder, hborn, hkeep, List.append_nil]
  exact h.frame hs

/-- A primitive is created and stands last in the order; if `malloc` failed nothing happens. -/
theorem Registered.made {s s₁ s' : State} {act : A} {al : Alloc} {k : PrimKind} {q : Ptr}
    {order : List Addr} (h : Registered s order) (he : s.createPrim k al = .ok (s₁, q))
    (hs : Schedules s₁ s') :
    Registered s' (creationOrder s s' (.call act al : Label A E) order) := by
  obtain ⟨q', hq, he⟩ := bind_eq_ok he
  rcases q' with _ | p
  · obtain ⟨rfl, -⟩ := Prod.mk.inj (Except.ok.inj he)
    exact h.same (.of_schedules hs)
  obtain ⟨hal, hfree⟩ := malloc_eq_some hq
  have hnone : s.kind p = none := by simpa using hfree
  obtain ⟨s₂, hs₂, hreg, hkind⟩ := h.initial (k := k) hnone
  obtain ⟨s₃, hs₃, he⟩ := bind_eq_ok he
  obtain ⟨rfl, -⟩ := Prod.mk.inj (Except.ok.inj he)
  obtain rfl : s₂ = s₃ := Except.ok.inj (hs₂.symm.trans hs₃)
  have hsame : SamePrims s₂ s' := .of_schedules hs
  have hkind' : s'.kind = Function.update s.kind p (some k) := hsame.kind.trans hkind
  have horder : creationOrder s s' (.call act al : Label A E) order = order ++ [p] := by
    have hkeep : order.filter (fun p => (s'.kind p).isSome) = order := by
      rw [List.filter_eq_self]
      intro a ha
      have hap : a ≠ p := fun hap => (h.live a).mp ha (hap ▸ hnone)
      rw [hkind', Function.update_of_ne hap]
      exact Option.isSome_iff_ne_none.mpr ((h.live a).mp ha)
    rw [creationOrder, hkeep, bornPrims, hal]
    simp [hnone, hkind']
  rw [horder]
  exact hreg.frame hsame

/-- A primitive is destroyed and leaves the order, while the others keep theirs. -/
theorem Registered.gone {s s' : State} {act : A} {al : Alloc} {k : PrimKind} {p : Addr}
    {order : List Addr} (h : Registered s order) (he : s.destroyPrim k p = .ok s') :
    Registered s' (creationOrder s s' (.call act al : Label A E) order) := by
  rw [destroyPrim] at he
  split at he
  · cases he
  rename_i hk
  have hk : s.kind p = some k := by simpa using hk
  obtain ⟨_, -, he⟩ := bind_eq_ok he
  obtain ⟨s₁, hs₁, he⟩ := bind_eq_ok he
  obtain rfl := Except.ok.inj he
  obtain ⟨s₂, hs₂, hlist, hkind⟩ := h.destroy ((h.live p).mpr (by simp [hk]))
  obtain rfl : s₂ = s₁ := Except.ok.inj (hs₂.symm.trans hs₁)
  have horder : creationOrder s { s₂ with kind := Function.update s₂.kind p none }
      (.call act al : Label A E) order = order.erase p := by
    have hborn : bornPrims s { s₂ with kind := Function.update s₂.kind p none }
        (.call act al : Label A E) = [] := by
      rw [bornPrims, List.filter_eq_nil_iff]
      intro a _
      by_cases hap : a = p <;> simp [hap, hkind, hk, Function.update_of_ne]
    rw [creationOrder, hborn, List.append_nil, h.list.nodup.erase_eq_filter]
    apply List.filter_congr
    intro a ha
    obtain ⟨k', hk'⟩ := Option.ne_none_iff_exists'.mp ((h.live a).mp ha)
    by_cases hap : a = p
    · simp [hap]
    · simp [hap, hkind, hk']
  rw [horder]
  refine ⟨hlist, ?_⟩
  intro a
  rw [h.list.nodup.mem_erase_iff, h.live a]
  by_cases hap : a = p
  · simp [hap]
  · simp [hap, hkind]

/-- **Step lemma**, by the effects of a step: a primitive is created, destroyed, or the registry is
left alone. -/
theorem Registered.step {P : Program U G A E} {m m' : Mach U G} {l : Label A E} {order : List Addr}
    (h : Registered m.st order) (he : m.step P l = .ok m') :
    Registered m'.st (creationOrder m.st m'.st l order) := by
  generalize hm : m'.st = s'
  have heffect := Mach.step_effect he
  rw [hm] at heffect
  cases heffect with
  | schedules hs => exact h.same (.of_schedules hs)
  | create hs => exact h.same (.threadCreate hs)
  | exit hs => exact h.same (.threadExit hs)
  | made hc hs => exact h.made hc hs
  | gone hd => exact h.gone hd
  | joinEnter hs => exact h.same (.threadJoinEnter hs)
  | joinTurn _ hs => exact h.same (.threadJoinTurn hs)
  | cspaceAlloc hs => exact h.same (.cspaceAlloc hs)
  | scribble _ => exact h.same ⟨rfl, rfl, rfl, rfl⟩

theorem Registered.of_reach {P : Program U G A E} {x : Mach U G × List Addr}
    (hx : Reach (registryRuns P) x) : Registered x.1.st x.2 := by
  refine Reach.invariant (T := registryRuns P) (P := fun x => Registered x.1.st x.2) ?_ ?_ hx
  · rintro ⟨m, order⟩ ⟨⟨mem, t, link, g, hblank, -, rfl⟩, rfl⟩
    refine ⟨.nil _ _, fun p => ?_⟩
    exact ⟨nofun, fun hp => absurd (hblank.kind p) hp⟩
  · rintro ⟨m, order⟩ l ⟨m', order'⟩ - h ⟨he, horder⟩
    rw [horder]
    exact h.step he

theorem Registered.correct {s : State} {order : List Addr} (h : Registered s order) :
    RegistryCorrect s order := by
  have hnil : order = [] ↔ ∀ p, s.kind p = none := by
    rw [List.eq_nil_iff_forall_not_mem]
    exact forall_congr' fun p => by rw [h.live p, not_not]
  refine ⟨h.live, h.list.nodup, ?_, by rw [h.list.ends], ?_, ?_, ?_, ?_, ?_⟩
  · intro n hn
    have hlist : IsDList s.primPre s.primNext s.syncPrim ([] ++ order) := h.list
    have hwalk := hlist.chase_next hn
    rwa [h.list.ends]
  · intro n hn
    have hlist : IsDList s.primPre s.primNext s.syncPrim (order ++ []) := by
      rw [List.append_nil]
      exact h.list
    have hwalk := hlist.chase_pre hn
    rwa [h.list.ends]
  · intro p hp q hq
    exact h.list.next_eq_some hp hq
  · rw [h.list.start_eq_none, hnil]
  · rw [h.list.stop_eq_none, hnil]
  · intro p hp
    obtain ⟨s', hs', -, -⟩ := h.destroy ((h.live p).mpr hp)
    exact ⟨s', hs'⟩

/-- **The registry is a correct doubly linked list** in every state of every run of every program:
its threads may create, join, wait and wake one another in any way between the creations and
destructions of primitives. -/
theorem registry_correct (P : Program U G A E) (x : Mach U G × List Addr)
    (hx : Reach (registryRuns P) x) : RegistryCorrect x.1.st x.2 :=
  (Registered.of_reach hx).correct

end Runs

/-- Three primitives are created and the middle one is destroyed again. -/
def churn : Script :=
  .call .lockCreate (.call .semCreate (.call .lockCreate (.call (.semDestory 1) .done)))

/-- After `churn` the registry leads from the first lock to the second one. -/
theorem registry_correct_churn : ∃ x, Reach (registryRuns churn.program) x ∧ x.2 = [0, 2] ∧
    RegistryCorrect x.1.st x.2 := by
  let take (x : Mach Script Unit × List Addr) (l : Label Unit Unit) :
      Except Fault (Mach Script Unit × List Addr) := do
    let m ← x.1.step churn.program l
    .ok (m, creationOrder x.1.st m.st l x.2)
  have htake : ∀ x l x', take x l = .ok x' → (registryRuns churn.program).step x l x' := by
    intro x l x' he
    obtain ⟨m, hm, he⟩ := bind_eq_ok he
    obtain rfl := Except.ok.inj he
    exact ⟨hm, rfl⟩
  have hboot : Reach (registryRuns churn.program) (churn.boot, []) :=
    .init ⟨Script.boot_init _, rfl⟩
  obtain ⟨x, hx, horder⟩ := hboot.exists_of_exec take htake
    [.go 0, .go 1, .go 2, .go 3] (fun x => x.2 = [0, 2]) (by decide)
  exact ⟨x, hx, horder, registry_correct churn.program x hx⟩

end GreenLib
