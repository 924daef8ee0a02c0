import NetProg.NameServer.Types

/-!
# One path, several walks

* `walkers_agree`: where `cd` accepts a path, the walks of `mv` and `cp` come to the same node;
* `cd_composes`: the path `p/q` is the path `p` with `q` behind it.
-/

namespace NetProg.NameServer

open NetProg.Lib

/-! ### The walks side by side -/

section

variable {h : Heap} {enter enter' : Node → Prop} {α : Type} {done : Ptr ℕ → α} {stop : CStr → List CStr → ℕ → α}
  {W : List CStr → Ptr ℕ → Except Fault (Option (Ptr ℕ))} {V : List CStr → Ptr ℕ → Except Fault α} {p q : Ptr ℕ}

/-- Every node that the walk `W` enters by its name may be entered by another walk too. -/
def Enters (h : Heap) (enter : Node → Prop) (W : List CStr → Ptr ℕ → Except Fault (Option (Ptr ℕ))) (l : List CStr)
    (p : Ptr ℕ) : Prop :=
  ∀ init found rest b m, l = init ++ found :: rest → found ≠ dotdot → found ≠ dot →
    W (init ++ [found]) p = .ok (some (.node b)) → h[b]? = some m → enter m

theorem Enters.tail {found : CStr} {l : List CStr} (he : Enters h enter W (found :: l) p)
    (hW : ∀ l, W (found :: l) p = W l q) : Enters h enter W l q := by
  intro init found' rest b m e hd hs hw
  exact he (found :: init) found' rest b m (congrArg _ e) hd hs ((hW _).trans hw)

/-- **Where one path loop comes to the end of a path, another does too**, if it may enter the same nodes. -/
theorem PathLoop.follow (hW : PathLoop h enter some (fun _ _ _ => none) W) (hV : PathLoop h enter' done stop V) :
    ∀ {l : List CStr} {p : Ptr ℕ}, Enters h enter' W l p → W l p = .ok (some q) → V l p = .ok (done q)
  | [], p, _, hw => by
    rw [hW.nil, Except.ok.injEq, Option.some.injEq] at hw
    rw [hV.nil, hw]
  | found :: l, p, he, hw => by
    by_cases hs : found = dot
    · subst hs
      rw [hW.stay] at hw
      rw [hV.stay]
      exact hW.follow hV (he.tail fun l => hW.stay l p) hw
    cases hp : deref h p with
    | error e =>
      rw [hW.lost hs hp] at hw
      cases hw
    | ok d =>
      obtain ⟨a, n⟩ := d
      obtain ⟨rfl, ha⟩ := deref_eq_ok.1 hp
      by_cases hd : found = dotdot
      · subst hd
        rw [hW.up ha] at hw
        rw [hV.up ha]
        exact hW.follow hV (he.tail fun _ => hW.up ha) hw
      cases hl : lookup h found n.child with
      | error e =>
        rw [hW.failed hd hs ha hl] at hw
        cases hw
      | ok o =>
        cases o with
        | none =>
          rw [hW.missing hd hs ha hl] at hw
          cases hw
        | some b =>
          obtain ⟨m, hb, -⟩ := (lookup_eq_some hl).get
          by_cases hen : enter m
          · have hdown {rest : List CStr} : W (found :: rest) (.node a) = W rest (.node b) := hW.down hd hs ha hl hb hen
            have hm : enter' m := he [] found l b m rfl hd hs (hdown.trans (hW.nil _)) hb
            rw [hdown] at hw
            rw [hV.down hd hs ha hl hb hm]
            exact hW.follow hV (he.tail fun _ => hdown) hw
          · rw [hW.barred hd hs ha hl hb hen] at hw
            cases hw

end

/-! ### A path behind another -/

/-- `p/q` -/
def join (p q : CStr) : CStr := (p.cat (lit "/")).cat q

theorem fields_join (p q : CStr) : fields slash (join p q) = fields slash p ++ fields slash q := by
  have hs : (lit "/").bytes = [slash] := by decide
  apply CStr.map_bytes_injective
  rw [List.map_append, fields_bytes, fields_bytes, fields_bytes, ← fieldBytes_append]
  simp [join, CStr.cat, hs]

/-- The loop over the components `m`, behind others that have come to `o`. -/
def cdOn (h : Heap) (m : List CStr) : Option (Ptr ℕ) → Except Fault (Option (Ptr ℕ))
  | none => .ok none
  | some temp_cur => cdWalk h m temp_cur

section

variable {h : Heap} {m : List CStr} {s s' : Mem} {p q dirname : CStr} {x : Ptr ℕ} {e : Fault}

theorem cdWalk_append : ∀ {l : List CStr} {p : Ptr ℕ}, cdWalk h (l ++ m) p = cdWalk h l p >>= cdOn h m
  | [], _ => rfl
  | found :: l, p => by
    rw [List.cons_append, cdWalk, cdWalk]
    split
    · rw [bind_assoc]
      exact congrArg _ (funext fun d => cdWalk_append)
    · split
      · exact cdWalk_append
      · rw [bind_assoc]
        refine congrArg _ (funext fun d => ?_)
        obtain ⟨a, n⟩ := d
        dsimp only
        rw [bind_assoc]
        refine congrArg _ (funext fun o => ?_)
        cases o with
        | none => rfl
        | some b =>
          dsimp only
          rw [bind_assoc]
          refine congrArg _ (funext fun d => ?_)
          obtain ⟨b, m⟩ := d
          dsimp only
          split
          · exact cdWalk_append
          · rfl

/-- `cd` is answered with 0. -/
theorem step_cd_accepted : Step s (.cd dirname) (lit "0").z s' ↔
    ∃ x, cdWalk s.heap (fields slash dirname) s.cur = .ok (some x) ∧ s' = { s with cur := x } := by
  have hne : (lit "0").z ≠ (lit "1").z := by decide
  rw [step_cd_iff]
  simp [hne]

/-- `cd` is answered with 1. -/
theorem step_cd_rejected : Step s (.cd dirname) (lit "1").z s' ↔
    cdWalk s.heap (fields slash dirname) s.cur = .ok none ∧ s' = s := by
  have hne : (lit "1").z ≠ (lit "0").z := by decide
  rw [step_cd_iff]
  simp [hne]

/-- `cd` stops the server. -/
theorem exec_cd_error : (exec s (.cd dirname)).2.error = some e ↔
    cdWalk s.heap (fields slash dirname) s.cur = .error e := by
  show ((changeDirectory s).feed [dirname]).2.error = some e ↔ _
  rw [changeDirectory, Proc.feed]
  cases cdWalk s.heap (fields slash dirname) s.cur with
  | error e' => simp [Proc.feed, Outcome.error]
  | ok o => cases o <;> simp [reply, Proc.feed, Outcome.error]

end

/-- **The walks agree**: where `cd` accepts a path and comes to `x`, the walks of `mv` and `cp` over the source, and that of
`cp` over the destination, come to `x` without a flag; and `cd` accepts a path where the walk over the source comes to its
end through directories only. -/
theorem walkers_agree (s : Mem) (path : CStr) (x : Ptr ℕ) :
    (Step s (.cd path) (lit "0").z { s with cur := x } →
      walkSource s.heap (fields slash path) s.cur = .ok (some x) ∧
      walkDestination s.heap (fields slash path) s.cur = .ok ⟨x, false, none⟩ ∧
      -- in a tree, the node that `cp` has filled in is not found, and the test behind the walk does not set `flag` either
      (Typed s → (∀ xn, walkDestination (s.heap ++ [newCopy s xn]) (fields slash path) s.cur = .ok ⟨x, false, none⟩) ∧
        ∀ a, x = .node a → field Node.type s.heap a = some .directory)) ∧
    (walkSource s.heap (fields slash path) s.cur = .ok (some x) →
      Enters s.heap isDirectory (walkSource s.heap) (fields slash path) s.cur →
      Step s (.cd path) (lit "0").z { s with cur := x }) := by
  refine ⟨fun hcd => ?_, fun hw he => ?_⟩
  · obtain ⟨y, hw, e⟩ := step_cd_accepted.1 hcd
    obtain rfl : x = y := congrArg Mem.cur e
    have hany : Enters s.heap anyNode (cdWalk s.heap) (fields slash path) s.cur := fun _ _ _ _ _ _ _ _ _ _ => trivial
    refine ⟨(cdWalk_loop _).follow (walkSource_loop _) hany hw, (cdWalk_loop _).follow (walkDestination_loop _) hany hw,
      fun hs => ?_⟩
    have hr := cdWalk_eq_some hw
    refine ⟨fun xn => ?_, fun a ha => (hs.heap.resolve_dir hr hs.cur a ha).1⟩
    have hn : (newCopy s xn).next = .null := rfl
    have hs₁ : Shaped (s.heap ++ [newCopy s xn]) := hs.heap.append rfl hn fun a e => by cases e
    have hr₁ := (hs.heap.resolve_append hn hs.cur.inside).2 (hr.mono fun _ _ => trivial)
    have hw₁ : walkDestination _ (fields slash path ++ []) s.cur = _ :=
      (walkDestination_loop _).append hs₁ (hs.cur.mono (extends_append _ _)).inside hr₁
    rwa [List.append_nil] at hw₁
  · exact step_cd_accepted.2 ⟨x, (walkSource_loop _).follow (cdWalk_loop _) he hw, rfl⟩

/-- **Path resolution composes**: `cd p/q` is accepted where `cd p` and then `cd q` are, and leads to the same directory;
it is rejected where one of them is, and then leaves the current directory as it was; and it stops the server where one of
them does. -/
theorem cd_composes (s : Mem) (p q : CStr) :
    (∀ s', Step s (.cd (join p q)) (lit "0").z s' ↔
      ∃ s₁, Step s (.cd p) (lit "0").z s₁ ∧ Step s₁ (.cd q) (lit "0").z s') ∧
    (∀ s', Step s (.cd (join p q)) (lit "1").z s' ↔ s' = s ∧ (Step s (.cd p) (lit "1").z s ∨
      ∃ s₁, Step s (.cd p) (lit "0").z s₁ ∧ Step s₁ (.cd q) (lit "1").z s₁)) ∧
    ∀ e, (exec s (.cd (join p q))).2.error = some e ↔ (exec s (.cd p)).2.error = some e ∨
      ∃ s₁, Step s (.cd p) (lit "0").z s₁ ∧ (exec s₁ (.cd q)).2.error = some e := by
  simp only [step_cd_accepted, step_cd_rejected, exec_cd_error, fields_join, cdWalk_append, except_bind_eq_ok,
    except_bind_eq_error]
  refine ⟨fun s' => ?_, fun s' => ?_, fun e => ?_⟩
  · constructor
    · rintro ⟨x, ⟨o, ho, hx⟩, rfl⟩
      cases o with
      | none => cases hx
      | some y => exact ⟨_, ⟨y, ho, rfl⟩, x, hx, rfl⟩
    · rintro ⟨_, ⟨y, hy, rfl⟩, x, hx, rfl⟩
      exact ⟨x, ⟨some y, hy, hx⟩, rfl⟩
  · constructor
    · rintro ⟨⟨o, ho, hx⟩, rfl⟩
      cases o with
      | none => exact ⟨rfl, Or.inl ⟨ho, trivial⟩⟩
      | some y => exact ⟨rfl, Or.inr ⟨_, ⟨y, ho, rfl⟩, hx, trivial⟩⟩
    · rintro ⟨rfl, ⟨ho, -⟩ | ⟨_, ⟨y, hy, rfl⟩, hx, -⟩⟩
      · exact ⟨⟨none, ho, rfl⟩, rfl⟩
      · exact ⟨⟨some y, hy, hx⟩, rfl⟩
  · refine or_congr Iff.rfl ?_
    constructor
    · rintro ⟨o, ho, hx⟩
      cases o with
      | none => cases hx
      | some y => exact ⟨_, ⟨y, ho, rfl⟩, hx⟩
    · rintro ⟨_, ⟨y, hy, rfl⟩, hx⟩
      exact ⟨some y, hy, hx⟩

end NetProg.NameServer
