import NetProg.Lib.Descent
import NetProg.NameServer.Chains

/-!
# What a move moves

`move_iff`: a `mv` that replies `0` leaves the nodes reached from `home` as they are if and only if it fits
(`MoveFits`): the source is the first node of its name on its chain, and it goes from under `home` to under `home` but
not to under itself.

It holds in every run whose commands have room and whose `mv` commands unlink their sources from where they stand and never move `home`
(`MvRooted`); there no link leads to `home` (`rooted_step`).
-/

namespace NetProg.NameServer

open NetProg.Lib

/-- If the source of a `mv` is found, it is not `home`, and it is unlinked from where it stands. -/
def MvRooted (s : Mem) (c : Cmd) : Prop :=
  ∀ source destination x, c = .mv source destination →
    Resolve s.heap anyNode s.cur (fields slash source) (.node x) →
    x ≠ home ∧ (OnOwnChain s.heap x ∨ Loose s.heap x)

/-- The move of `x` from the chain of `par` to that of `d` fits: if `par` is reached from `home`, no node of that chain
with the name of `x` stands before it, and `x` is reached from `home` just if `d` is and is not under `x`. -/
def Fits (h : Heap) (x par d : ℕ) : Prop :=
  ((links h).Reach home par → ∀ t v, field Node.name h x = some t → First h t ((links h).child par) v → v = x) ∧
    ((links h).Reach home x ↔ (links h).Reach home d ∧ ¬ (links h).Under x d)

/-- The source and the destination of a `mv` fit, the destination being looked up once the source is unlinked. -/
def MoveFits (s : Mem) (source destination : CStr) : Prop :=
  ∀ x par h₁ d new, Resolve s.heap anyNode s.cur (fields slash source) (.node x) →
    field Node.parent s.heap x = some (.node par) → Unlinked s.heap x h₁ →
    Dest h₁ s.cur (fields slash destination) d new → Fits s.heap x par d

section

variable {s s' : Mem} {h h' : Heap} {a b d x : ℕ} {p : Ptr ℕ} {l m : List ℕ} {n : Node} {c : Cmd} {out : List Byte}

theorem MvRooted.ok (hok : MvRooted s c) : MvOk s c := fun source destination x e hr =>
  (hok source destination x e hr).2

/-! ### No link leads to `home` -/

theorem Unlinked.rooted (hs : Shaped h) (hR : (links h).Rooted home) (hu : Unlinked h x h') :
    (links h').Rooted home := by
  cases hu with
  | kept => exact hR
  | @cut xn par l v hx hpar hv hn hname =>
    rw [links_cut_of_get hs (hs.parent (field_of_get hx) par hpar).2.lt (hs.seg_filled hv (hs.links_child par).inside).1
      hx]
    exact (hR.setAfter (hR.not_mem hv (hR.child par)) (hR.next x)).clear

theorem rooted_step (hs : Typed s) (h0 : Filled s.heap home) (hR : (links s.heap).Rooted home) (hok : MvRooted s c)
    (h : Step s c out s') : (links s'.heap).Rooted home := by
  have hlen : s.heap.length ≠ home := h0.lt.ne'
  have hoff : ∀ {L : Links ℕ} {d l}, L.Rooted home → L.Kids d l → home ∉ l := fun hR hk => hR.not_mem hk (hR.child _)
  cases step_cases hs h with
  | keep => exact hR
  | enter => exact hR
  | insert e hc hn _ hk _ =>
    rw [links_insert hs.heap (hs.cur _ e).2.lt hk (by rw [hc, Ptr.orNull_null]) hn rfl (by simp)]
    exact hR.setAfter (hoff hR hk) (by simpa using hlen)
  | @remove _ _ d l v vn e hv hg _ =>
    rw [links_cut_of_get hs.heap (hs.cur _ e).2.lt (hs.heap.seg_filled hv (hs.heap.links_child d).inside).1 hg]
    exact (hR.setAfter (hR.not_mem hv (hR.child d)) (hR.next v)).clear
  | unlinked _ hu => exact hu.rooted hs.heap hR
  | move hr hu hd ht hk =>
    have hR₁ := hu.rooted hs.heap hR
    rw [links_move (hu.shaped hs.heap) (lt_of_field ht) hk]
    exact hR₁.setAfter (hoff hR₁ hk) (by simpa using (hok _ _ _ rfl hr).1)
  | orphan => rwa [links_append rfl rfl]
  | @copy _ _ loc x xn d new l _ hr hx hd ht hk =>
    rw [links_insert (n := copyNode s xn (new.getD xn.name) loc) hs.heap (lt_of_field ht) hk rfl rfl (by simp) (by simp)]
    exact hR.setAfter (hoff hR hk) (by simpa using hlen)

theorem rooted_fresh (garbage : ℕ → Node) : (links (fresh garbage).heap).Rooted home := by
  refine ⟨fun a => ?_, fun a => ?_, rfl⟩ <;> cases a <;> simp [links, field, fresh]

theorem Run.rooted {garbage : ℕ → Node} {cs : List Cmd} (h : Run MvRooted (fresh garbage) cs s) :
    Typed s ∧ (links s.heap).Sound ∧ (links s.heap).Rooted home :=
  have hinv := h.inv (fun s => Typed s ∧ Filled s.heap home ∧ (links s.heap).Sound ∧ (links s.heap).Rooted home)
    ⟨typed_fresh garbage, ⟨.null, rfl, by simp⟩, sound_fresh garbage, rooted_fresh garbage⟩
    fun _ _ _ _ ⟨hs, h0, hL, hR⟩ hok hst =>
      ⟨hs.step hst, (step_extends hs hst).filled h0, sound_step hs hL hok.ok hst, rooted_step hs h0 hR hok hst⟩
  ⟨hinv.1, hinv.2.2⟩

/-! ### The move -/

/-- The nodes reached before and after a move. -/
theorem reach_move_iff (hs : Shaped h) (hL : (links h).Sound) (hR : (links h).Rooted home) (hxh : x ≠ home)
    (hx : OnOwnChain h x ∨ Loose h x) {par : ℕ} (hpar : field Node.parent h x = some (.node par))
    (hu : Unlinked h x h') (hd : d < h'.length) (hk : (links h').Kids d l) {p : Ptr ℕ} (new : Option CStr) :
    (∀ a, (links (rename (setAfter (setParent h' x p) d l (.node x)) x new)).Reach home a ↔ (links h).Reach home a) ↔
      Fits h x par d := by
  have hs₁ := hu.shaped hs
  have hR₁ := hu.rooted hs hR
  obtain ⟨hL₁, hloose, xn, par', hg, hpar', hcase⟩ := hu.sound hs hL hx
  have hpp : par' = par := by
    rw [field_of_get hg, hpar'] at hpar
    cases hpar
    rfl
  subst hpp
  obtain ⟨m₁, hm₁⟩ := hL₁.rest x
  obtain ⟨hL₂, hk₂, hother₂⟩ := sound_move (p := p) hs₁ hL₁ hd hk hloose ⟨rfl, hm₁⟩ new
  have hR₂ : (links (rename (setAfter (setParent h' x p) d l (.node x)) x new)).Rooted home := by
    rw [links_move hs₁ hd hk]
    exact hR₁.setAfter (hR₁.not_mem hk (hR₁.child d)) (by simpa using hxh)
  simp only [hR.reach_iff hL, hR₂.reach_iff hL₂, Fits]
  have hname : ∀ t, field Node.name h x = some t ↔ xn.name = t := fun t => by rw [field_of_get hg]; simp
  rcases hcase with ⟨rfl, l', hk', hn'⟩ | ⟨l₀, v, r, m, hk', hn', hv, hm, hin, h0, hk₁, hother₁⟩
  · -- no node of the chain bears the name
    have hfirst : ∀ t v, field Node.name h' x = some t → ¬ First h' t ((links h').child par') v := by
      intro t v ht
      exact Missing.not_first ⟨l', hk', (hname t).1 ht ▸ hn'⟩
    rw [Links.Rooted.move_iff_loose hL hR.off hxh ⟨hk, hk₂, hother₂⟩ (hloose (x :: m₁) ⟨rfl, hm₁⟩ x (by simp))]
    exact ⟨fun hiff => ⟨fun _ t v ht hf => absurd hf (hfirst t v ht), hiff⟩, And.right⟩
  · have hm₁ : m₁ = [] := by
      rw [h0] at hm₁
      cases m₁ with
      | nil => rfl
      | cons y m₁ => cases hm₁.1
    subst hm₁
    have hseg : First h xn.name ((links h).child par') v := by
      obtain ⟨q, h1, h2⟩ := seg_append.1 hk'
      exact ⟨l₀, h2.1 ▸ h1, hv, hn'⟩
    rw [Links.Rooted.move_iff_cut hL hR.off hxh ⟨hk', hk₁, hother₁⟩ ⟨hk, hk₂, hother₂⟩ hin
      (hloose [x] ⟨rfl, h0⟩ x (by simp)) hL₂ hR₂.off]
    refine and_congr_left' (imp_congr_right fun _ => ⟨fun hvx t v' ht hf => ?_, fun hall => ?_⟩)
    · rw [← (hname t).1 ht] at hf
      rw [← hf.unique hseg] at hvx
      exact hvx
    · exact hall xn.name v ((hname _).2 rfl) hseg

end

/-- **A move loses nothing** just if it fits: the current directory, the nodes reached from `home` and so the current
directory's membership in them are the same before and after, and no directory reached is below itself. -/
theorem move_iff {garbage : ℕ → Node} {cs : List Cmd} {s s' : Mem} {source destination : CStr}
    (h : Run (fun s c => Room s c ∧ MvRooted s c) (fresh garbage) cs s)
    (hok : Room s (.mv source destination) ∧ MvRooted s (.mv source destination))
    (hst : Step s (.mv source destination) (lit "0").z s') :
    (s'.cur = s.cur ∧ (∀ a, (links s'.heap).Reach home a ↔ (links s.heap).Reach home a) ∧
        ∀ a, (links s'.heap).Reach home a → ¬ Relation.TransGen (links s'.heap).Child a a) ↔
      MoveFits s source destination := by
  replace h : Run MvRooted (fresh garbage) cs s := h.mono fun _ _ => And.right
  replace hok := hok.2
  obtain ⟨hs, hL, hR⟩ := h.rooted
  obtain ⟨-, hL', hR'⟩ := (h.snoc hok hst).rooted
  have hacyclic : ∀ a, (links s'.heap).Reach home a → ¬ Relation.TransGen (links s'.heap).Child a a :=
    fun a ha => Links.Rooted.not_below_self hL' hR'.off ((hR'.reach_iff hL').1 ha)
  have hc := step_cases hs hst
  generalize hout : (lit "0").z = out at hc
  cases hc with
  | keep hc => exact absurd (hout.trans (hc _ _ rfl)) (by decide)
  | insert _ _ _ _ _ hc =>
    rcases hc with hc | ⟨⟨_, _, _, hc⟩, -⟩ <;> cases hc
  | unlinked => exact absurd hout (by decide)
  | @move _ _ x h₁ d new l hr hu hd ht hk =>
    obtain ⟨hxh, hx⟩ := hok _ _ _ rfl hr
    obtain ⟨-, -, xn, par, hg, hpar, -⟩ := hu.sound hs.heap hL hx
    have hp : field Node.parent s.heap x = some (.node par) := by rw [field_of_get hg, hpar]
    have key := reach_move_iff (p := .node d) hs.heap hL hR hxh hx hp hu (lt_of_field ht) hk new
    constructor
    · rintro ⟨-, hreach, -⟩ x' par' h₁' d' new' hr' hp' hu' hd'
      cases hr.unique hr'
      rw [hp] at hp'
      cases hp'
      cases hu.unique hu'
      cases hd.unique hd'
      exact key.1 hreach
    · exact fun hfits => ⟨rfl, key.2 (hfits x par h₁ d new hr hp hu hd), hacyclic⟩

theorem move_iff_sibling : ∃ s ∈ serve (fresh zeroed) [.mkdir (lit "a"), .mkdir (lit "d")],
    ∃ s' ∈ serve s [.mv (lit "a") (lit "d")],
      (s'.cur = s.cur ∧ (∀ a, (links s'.heap).Reach home a ↔ (links s.heap).Reach home a) ∧
        ∀ a, (links s'.heap).Reach home a → ¬ Relation.TransGen (links s'.heap).Child a a) ↔
      MoveFits s (lit "a") (lit "d") := by
  obtain ⟨s, hs, hk, hp, hw, hout, s', hs', -⟩ : ∃ s ∈ serve (fresh zeroed) [.mkdir (lit "a"), .mkdir (lit "d")],
      (links s.heap).Kids home [1, 2] ∧ field Node.parent s.heap 1 = some (.node home) ∧
        walkSource s.heap (fields slash (lit "a")) s.cur = .ok (some (.node 1)) ∧
        (exec s (.mv (lit "a") (lit "d"))).1 = (lit "0").z ∧ ∃ s' ∈ serve s [.mv (lit "a") (lit "d")], True := by decide
  have hr : Run (fun s c => Room s c ∧ MvRooted s c) (fresh zeroed) [.mkdir (lit "a"), .mkdir (lit "d")] s :=
    Run.nil.serve (fun c hc s => ⟨room_mkdirs [lit "a", lit "d"] (by decide) c hc s, by revert c; simp [MvRooted]⟩) hs
  have hok : MvRooted s (.mv (lit "a") (lit "d")) := by
    intro source destination y e hy
    cases e
    cases hy.unique (walkSource_eq_some hw)
    exact ⟨by decide, Or.inl ⟨home, [1, 2], hp, hk, by simp⟩⟩
  exact ⟨s, hs, s', hs', move_iff hr ⟨room_mv (by decide), hok⟩ (step_of_serve hs' hout)⟩

/-- `cd a` and `mv . x`: the directory `a` becomes its own child, and is lost. -/
theorem move_loses : ∃ s s', Reachable s ∧ Step s (.mv dot (lit "x")) (lit "0").z s' ∧
    (links s.heap).Reach home 1 ∧ ¬ (links s'.heap).Reach home 1 ∧ (links s'.heap).Child 1 1 := by
  obtain ⟨s, hs, hk, hout, s', hs', hc, hn, hk'⟩ : ∃ s ∈ serve (fresh zeroed) [.mkdir (lit "a"), .cd (lit "a")],
      (links s.heap).Kids home [1] ∧ (exec s (.mv dot (lit "x"))).1 = (lit "0").z ∧
        ∃ s' ∈ serve s [.mv dot (lit "x")], (links s'.heap).child home = .null ∧ (links s'.heap).next home = .null ∧
          (links s'.heap).Kids 1 [1] := by decide
  refine ⟨s, s', reachable_serve hs, step_of_serve hs' hout, ?_, ?_, ⟨[1], hk', by simp⟩⟩
  · exact Relation.ReflTransGen.single (Or.inl hk.1)
  · intro h
    rcases Relation.ReflTransGen.cases_head h with e | ⟨b, hb | hb, -⟩
    · cases e
    · rw [hc] at hb; cases hb
    · rw [hn] at hb; cases hb

end NetProg.NameServer
