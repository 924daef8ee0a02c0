import Mathlib.Data.List.Find
import Mathlib.Order.Monotone.Basic
import NetProg.NameServer.Commands

/-!
# Trees of files

What the commands of the name server do to a tree in which each node has a list of children.  A `FileTree` keeps data of
any kind with its nodes; paths see only their labels.

* `FileTree.mkdir`, `cd`, `create`, `get`, `remove`, `move`, `copying`: the commands, where they are answered at all;
* `Embeds ρ F T`: the tree `T` is `F` under other numbers, and may have nodes that nothing leads to; each command does
  the same to both (`Embeds.mkdir` and the others).
-/

namespace NetProg.NameServer

open NetProg.Lib

/-- What a path sees of a node. -/
structure Tag where
  name : CStr
  type : NodeType
  deriving DecidableEq

/-- The nodes that have been made, the first `size` numbers. -/
structure FileTree (D : Type) where
  size : ℕ
  label : ℕ → Tag
  data : ℕ → D
  parent : ℕ → Ptr ℕ
  kids : ℕ → List ℕ
  cur : Ptr ℕ

/-- `home` alone. -/
def FileTree.home {D : Type} (x : D) : FileTree D where
  size := 1
  label _ := ⟨lit "home", .directory⟩
  data _ := x
  parent _ := .null
  kids _ := []
  cur := .node 0

namespace FileTree

section Operations

variable {D : Type} (T : FileTree D)

/-! ### Paths -/

/-- The first child for which `hit` holds. -/
def find (d : ℕ) (hit : Tag → Bool) : Option ℕ := (T.kids d).find? fun a => hit (T.label a)

/-- A path is followed: to `..` and `.`, and by name to the first child of that name, if `enter` holds of it; it ends
with `stop` at a component that is missing or may not be entered.  Above `home`, and above a copy, there is no node. -/
def follow {α : Type} (enter : Tag → Bool) (done : Ptr ℕ → α) (stop : CStr → List CStr → ℕ → α) :
    List CStr → Ptr ℕ → Option α
  | [], p => some (done p)
  | found :: rest, p =>
    if found = dot then follow enter done stop rest p
    else
      match p with
      | .node a =>
        if found = dotdot then follow enter done stop rest (T.parent a)
        else
          match T.find a fun e => e.name = found with
          | none => some (stop found rest a)
          | some b => if enter (T.label b) then follow enter done stop rest (.node b) else some (stop found rest a)
      | _ => none

/-- Where a path leads, if it does. -/
def walk (enter : Tag → Bool) : List CStr → Ptr ℕ → Option (Option (Ptr ℕ)) := T.follow enter some fun _ _ _ => none

/-- Where a destination leads; the last component may be missing. -/
def dest : List CStr → Ptr ℕ → Option Destination :=
  T.follow (fun _ => true) (fun p => ⟨p, false, none⟩) fun found rest a =>
    if rest = [] then ⟨.node a, false, some found⟩ else ⟨.node a, true, none⟩

/-! ### Changes -/

/-- A new node that nothing leads to. -/
def grow (l : Tag) (x : D) (p : Ptr ℕ) : FileTree D := { T with
  size := T.size + 1
  label := Function.update T.label T.size l
  data := Function.update T.data T.size x
  parent := Function.update T.parent T.size p }

def setKids (d : ℕ) (l : List ℕ) : FileTree D := { T with kids := Function.update T.kids d l }

def reparent (x : ℕ) (p : Ptr ℕ) : FileTree D := { T with parent := Function.update T.parent x p }

/-- A new name, if there is one. -/
def relabel (x : ℕ) (new : Option CStr) : FileTree D :=
  { T with label := Function.update T.label x { T.label x with name := new.getD (T.label x).name } }

/-- A new node, last among the children of `d`. -/
def add (d : ℕ) (l : Tag) (x : D) (p : Ptr ℕ) : FileTree D := (T.grow l x p).setKids d (T.kids d ++ [T.size])

/-- `movefile` unlinks the children from the first one of that name on, up to `x`. -/
def detach (x d : ℕ) : FileTree D :=
  T.setKids d (((T.kids d).takeWhile fun a => (T.label a).name ≠ (T.label x).name) ++
    ((T.kids d).dropWhile fun a => a ≠ x).tail)

/-- `x` becomes the last child of `d`. -/
def moveTo (x d : ℕ) (new : Option CStr) : FileTree D :=
  ((T.relabel x new).reparent x (.node d)).setKids d (T.kids d ++ [x])

/-! ### Commands -/

/-- There is room for a name. -/
def Fits (name : CStr) : Prop := name.bytes.length < nameSize

instance (name : CStr) : Decidable (Fits name) := inferInstanceAs (Decidable (_ < _))

/-- The current directory. -/
def here : Option ℕ :=
  match T.cur with
  | .node d => some d
  | _ => none

def names : Option (List CStr) := T.here.map fun d => (T.kids d).map fun a => (T.label a).name

def mkdir (dirname : CStr) (x : D) : Option (FileTree D) :=
  T.here.bind fun d => if Fits dirname then some (T.add d ⟨dirname, .directory⟩ x T.cur) else none

def cd (dirname : CStr) : Option (Bool × FileTree D) :=
  (T.walk (fun l => l.type = .directory) (fields slash dirname) T.cur).map fun
    | some q => (true, { T with cur := q })
    | none => (false, T)

/-- A file is made, if its name is free. -/
def create (filename : CStr) (x : D) : Option (Bool × FileTree D) :=
  T.here.bind fun d =>
    match T.find d fun l => l.name = baseName filename with
    | some _ => some (false, T)
    | none => if Fits (baseName filename) then some (true, T.add d ⟨baseName filename, .file⟩ x T.cur) else none

/-- The file of a name. -/
def get (file : CStr) : Option ℕ := T.here.bind fun d => T.find d fun l => l.name = file ∧ l.type = .file

/-- `removefile` goes by the name alone for the first child. -/
def taken (d : ℕ) (file : CStr) : Option ℕ :=
  match T.kids d with
  | [] => none
  | a :: l =>
    if (T.label a).name = file then some a
    else l.find? fun b => (T.label b).name = file ∧ (T.label b).type = .file

def remove (file : CStr) : Option (ℕ × FileTree D) :=
  T.here.bind fun d => (T.taken d file).map fun a => (a, T.setKids d ((T.kids d).erase a))

/-- A move, of a node that is a child of its parent. -/
def move (source destination : CStr) : Option (Bool × FileTree D) :=
  match T.walk (fun _ => true) (fields slash source) T.cur with
  | some none => some (false, T)
  | some (some (.node x)) =>
    match T.parent x with
    | .node par =>
      if x ∈ T.kids par then
        match (T.detach x par).dest (fields slash destination) T.cur with
        | some ⟨.node d, flag, new⟩ =>
          if ((T.detach x par).label d).type = .file ∨ flag then some (false, T.detach x par)
          else if new.all (Fits ·) then some (true, (T.detach x par).moveTo x d new) else none
        | _ => none
      else none
    | _ => none
  | _ => none

/-- What becomes of a copy: there is no source, there is no place for it, or it goes into `d`. -/
inductive Copying where
  | missing
  | refused (x : ℕ)
  | goes (x d : ℕ) (new : Option CStr)

def copying (source destination : CStr) : Option Copying :=
  match T.walk (fun _ => true) (fields slash source) T.cur with
  | some none => some .missing
  | some (some (.node x)) =>
    match T.dest (fields slash destination) T.cur with
    | some ⟨.node d, flag, new⟩ =>
      if (T.label d).type = .file ∨ flag then some (.refused x)
      else if new.all (Fits ·) then some (.goes x d new) else none
    | _ => none
  | _ => none

/-- It is the source that gets `d` as its parent, and the copy gets none. -/
def addCopy (x d : ℕ) (new : Option CStr) (y : D) : FileTree D :=
  (T.add d { T.label x with name := new.getD (T.label x).name } y .unassigned).reparent x (.node d)

end Operations

/-- The nodes of a copy under other numbers. -/
def Copying.map (ρ : ℕ → ℕ) : Copying → Copying
  | .missing => .missing
  | .refused x => .refused (ρ x)
  | .goes x d new => .goes (ρ x) (ρ d) new

/-- They have been made. -/
def Copying.Made {D : Type} (F : FileTree D) : Copying → Prop
  | .missing => True
  | .refused x => x < F.size
  | .goes x d _ => x < F.size ∧ d < F.size

/-! ### Commands that make no node -/

section Same

variable {D : Type} {F F' : FileTree D} {b : Bool}

theorem get_eq_some {file : CStr} {a : ℕ} (h : F.get file = some a) :
    (∃ d, a ∈ F.kids d) ∧ (F.label a).type = .file := by
  obtain ⟨d, -, h⟩ := Option.bind_eq_some_iff.1 h
  have hhit := List.find?_some h
  dsimp only at hhit
  exact ⟨⟨d, List.mem_of_find?_eq_some h⟩, (of_decide_eq_true hhit).2⟩

end Same

/-! ### Trees that nothing leads out of -/

/-- Nothing leads to a node that has not been made. -/
structure Closed {D : Type} (T : FileTree D) : Prop where
  kids : ∀ {d a}, a ∈ T.kids d → a < T.size
  parent : ∀ {a b}, a < T.size → T.parent a = .node b → b < T.size
  cur : ∀ {a}, T.cur = .node a → a < T.size
  fresh : ∀ {d}, T.size ≤ d → T.kids d = []

section Closed

variable {D : Type} {T : FileTree D} {d x : ℕ} {p : Ptr ℕ} {l : Tag} {y : D} {ks : List ℕ} {new : Option CStr}

theorem Closed.grow (hT : T.Closed) (hp : ∀ b, p = .node b → b < T.size) : (T.grow l y p).Closed where
  kids ha := Nat.lt_succ_of_lt (hT.kids ha)
  parent {a b} ha hb := by
    replace hb : Function.update T.parent T.size p a = .node b := hb
    replace ha : a < T.size + 1 := ha
    show b < T.size + 1
    by_cases he : a = T.size
    · subst he
      rw [Function.update_self] at hb
      exact Nat.lt_succ_of_lt (hp b hb)
    · rw [Function.update_of_ne he] at hb
      exact Nat.lt_succ_of_lt (hT.parent (by omega) hb)
  cur ha := Nat.lt_succ_of_lt (hT.cur ha)
  fresh {d} hd := hT.fresh (Nat.le_of_succ_le hd)

theorem Closed.setKids (hT : T.Closed) (hd : d < T.size) (hk : ∀ a ∈ ks, a < T.size) : (T.setKids d ks).Closed where
  kids {e a} ha := by
    replace ha : a ∈ Function.update T.kids d ks e := ha
    by_cases he : e = d
    · rw [he, Function.update_self] at ha
      exact hk a ha
    · rw [Function.update_of_ne he] at ha
      exact hT.kids ha
  parent := hT.parent
  cur := hT.cur
  fresh {e} he := by
    show Function.update T.kids d ks e = []
    replace he : T.size ≤ e := he
    rw [Function.update_of_ne (by omega)]
    exact hT.fresh he

theorem Closed.reparent (hT : T.Closed) (hp : ∀ b, p = .node b → b < T.size) : (T.reparent x p).Closed where
  kids := hT.kids
  parent {a b} ha hb := by
    replace hb : Function.update T.parent x p a = .node b := hb
    by_cases he : a = x
    · rw [he, Function.update_self] at hb
      exact hp b hb
    · rw [Function.update_of_ne he] at hb
      exact hT.parent ha hb
  cur := hT.cur
  fresh := hT.fresh

theorem Closed.relabel (hT : T.Closed) : (T.relabel x new).Closed := ⟨hT.kids, hT.parent, hT.cur, hT.fresh⟩

theorem Closed.enter (hT : T.Closed) (hp : ∀ b, p = .node b → b < T.size) : Closed { T with cur := p } :=
  ⟨hT.kids, hT.parent, hp _, hT.fresh⟩

end Closed

/-! ### The same tree under other numbers -/

/-- Under the numbers `ρ`, the nodes of `F` stand in `T` as they do in `F`. -/
structure Like {D E : Type} (ρ : ℕ → ℕ) (F : FileTree D) (T : FileTree E) : Prop where
  label : ∀ {a}, a < F.size → T.label (ρ a) = F.label a
  parent : ∀ {a}, a < F.size → T.parent (ρ a) = (F.parent a).map ρ
  kids : ∀ {d}, d < F.size → T.kids (ρ d) = (F.kids d).map ρ

section Like

variable {D E : Type} {ρ : ℕ → ℕ} {F : FileTree D} {T : FileTree E} {d : ℕ} {p : Ptr ℕ}

theorem Like.find (h : Like ρ F T) (hF : F.Closed) (hd : d < F.size) (hit : Tag → Bool) :
    T.find (ρ d) hit = (F.find d hit).map ρ := by
  rw [FileTree.find, h.kids hd, List.find?_map]
  refine congrArg (Option.map ρ) (List.find?_congr fun a ha => ?_)
  rw [Function.comp_apply, h.label (hF.kids ha)]

theorem lt_of_find {hit : Tag → Bool} {a : ℕ} (hF : F.Closed) (ha : F.find d hit = some a) : a < F.size :=
  hF.kids (List.mem_of_find?_eq_some ha)

/-- **Paths** lead to the same nodes. -/
theorem Like.follow {α β : Type} {enter : Tag → Bool} {done : Ptr ℕ → α} {stop : CStr → List CStr → ℕ → α}
    {done' : Ptr ℕ → β} {stop' : CStr → List CStr → ℕ → β} {g : α → β} (h : Like ρ F T) (hF : F.Closed)
    (hdone : ∀ p, done' (p.map ρ) = g (done p)) (hstop : ∀ found rest a, stop' found rest (ρ a) = g (stop found rest a))
    {comps : List CStr} (hp : ∀ a, p = .node a → a < F.size) :
    T.follow enter done' stop' comps (p.map ρ) = (F.follow enter done stop comps p).map g := by
  induction comps generalizing p with
  | nil => exact congrArg some (hdone p)
  | cons found rest ih =>
    unfold FileTree.follow
    by_cases hdot : found = dot
    · rw [if_pos hdot, if_pos hdot]
      exact ih hp
    rw [if_neg hdot, if_neg hdot]
    cases p with
    | unassigned => rfl
    | null => rfl
    | node a =>
      have ha := hp a rfl
      dsimp only [Ptr.map_node]
      by_cases hdd : found = dotdot
      · rw [if_pos hdd, if_pos hdd, h.parent ha]
        exact ih fun b hb => hF.parent ha hb
      rw [if_neg hdd, if_neg hdd, h.find hF ha]
      cases hf : F.find a fun l => l.name = found with
      | none => exact congrArg some (hstop found rest a)
      | some b =>
        have hb := lt_of_find hF hf
        dsimp only [Option.map_some]
        rw [h.label hb]
        split
        · refine ih (p := .node b) fun c hc => ?_
          cases hc
          exact hb
        · exact congrArg some (hstop found rest a)

theorem Like.walk {enter : Tag → Bool} {comps : List CStr} (h : Like ρ F T) (hF : F.Closed)
    (hp : ∀ a, p = .node a → a < F.size) :
    T.walk enter comps (p.map ρ) = (F.walk enter comps p).map (Option.map (Ptr.map ρ)) := by
  refine h.follow hF ?_ ?_ hp
  · exact fun _ => rfl
  · exact fun _ _ _ => rfl

/-- The place that a destination leads to, under other numbers. -/
def mapDest (ρ : ℕ → ℕ) (dst : Destination) : Destination := { dst with temp_cur2 := dst.temp_cur2.map ρ }

theorem Like.dest {comps : List CStr} (h : Like ρ F T) (hF : F.Closed) (hp : ∀ a, p = .node a → a < F.size) :
    T.dest comps (p.map ρ) = (F.dest comps p).map (mapDest ρ) := by
  refine h.follow hF ?_ ?_ hp
  · exact fun _ => rfl
  · intro found rest a
    split <;> rfl

/-- A node that nothing leads to changes no path. -/
theorem dest_grow {comps : List CStr} {q : Ptr ℕ} {l : Tag} {y : D} (hF : F.Closed)
    (hp : ∀ a, p = .node a → a < F.size) : (F.grow l y q).dest comps p = F.dest comps p := by
  have hlike : Like id F (F.grow l y q) := by
    constructor
    · exact fun ha => Function.update_of_ne ha.ne _ _
    · intro a ha
      rw [Ptr.map_id]
      exact Function.update_of_ne ha.ne _ _
    · exact fun _ => (List.map_id _).symm
  have hid : mapDest id = id := by
    funext dst
    rw [mapDest, Ptr.map_id]
    rfl
  have hd : (F.grow l y q).dest comps (p.map id) = _ := hlike.dest hF hp
  rwa [Ptr.map_id, hid, Option.map_id] at hd

/-- What a path leads to has been made. -/
theorem follow_lt {α : Type} {enter : Tag → Bool} {done : Ptr ℕ → α} {stop : CStr → List CStr → ℕ → α} {P : α → Prop}
    (hF : F.Closed) (hdone : ∀ p, (∀ a, p = .node a → a < F.size) → P (done p))
    (hstop : ∀ found rest a, a < F.size → P (stop found rest a)) {comps : List CStr} {r : α}
    (hp : ∀ a, p = .node a → a < F.size) (hr : F.follow enter done stop comps p = some r) : P r := by
  induction comps generalizing p with
  | nil =>
    cases hr
    exact hdone p hp
  | cons found rest ih =>
    unfold FileTree.follow at hr
    by_cases hdot : found = dot
    · rw [if_pos hdot] at hr
      exact ih hp hr
    rw [if_neg hdot] at hr
    cases p with
    | unassigned => cases hr
    | null => cases hr
    | node a =>
      have ha := hp a rfl
      dsimp only at hr
      by_cases hdd : found = dotdot
      · rw [if_pos hdd] at hr
        exact ih (fun b hb => hF.parent ha hb) hr
      rw [if_neg hdd] at hr
      cases hf : F.find a fun l => l.name = found with
      | none =>
        rw [hf] at hr
        cases hr
        exact hstop found rest a ha
      | some b =>
        have hb := lt_of_find hF hf
        rw [hf] at hr
        dsimp only at hr
        split at hr
        · refine ih (fun c hc => ?_) hr
          cases hc
          exact hb
        · cases hr
          exact hstop found rest a ha

theorem walk_lt {enter : Tag → Bool} {comps : List CStr} {x : ℕ} (hF : F.Closed)
    (hp : ∀ a, p = .node a → a < F.size) (h : F.walk enter comps p = some (some (.node x))) : x < F.size :=
  follow_lt (P := fun o => ∀ a, o = some (.node a) → a < F.size) hF
    (fun p hp a ha => hp a (Option.some.inj ha)) (fun _ _ _ _ _ ha => by cases ha) hp h x rfl

theorem dest_lt {comps : List CStr} {flag : Bool} {new : Option CStr} (hF : F.Closed)
    (hp : ∀ a, p = .node a → a < F.size) (h : F.dest comps p = some ⟨.node d, flag, new⟩) : d < F.size := by
  refine follow_lt (P := fun dst => ∀ a, dst.temp_cur2 = .node a → a < F.size) hF (fun p hp => hp)
    (fun found rest a ha b hb => ?_) hp h d rfl
  split at hb <;> (cases hb; exact ha)

end Like

/-- **`T` is `F` under the numbers `ρ`**, and nothing leads to its other nodes. -/
structure Embeds {D E : Type} (ρ : ℕ → ℕ) (F : FileTree D) (T : FileTree E) : Prop extends Like ρ F T where
  mono : StrictMono ρ
  tail : ∀ i, ρ (F.size + i) = T.size + i
  cur : T.cur = F.cur.map ρ
  closed : F.Closed
  fresh : ∀ {d}, T.size ≤ d → T.kids d = []

namespace Embeds

variable {D E : Type} {ρ : ℕ → ℕ} {F F' : FileTree D} {T : FileTree E} {d x : ℕ} {p : Ptr ℕ} {l : Tag} {y : D} {z : E}
  {m : List ℕ} {u : Option CStr}

theorem size (h : Embeds ρ F T) : ρ F.size = T.size := h.tail 0

theorem lt (h : Embeds ρ F T) {a : ℕ} (ha : a < F.size) : ρ a < T.size := h.size ▸ h.mono ha

theorem of_lt (h : Embeds ρ F T) {a : ℕ} (ha : ρ a < T.size) : a < F.size := h.mono.lt_iff_lt.1 (h.size.symm ▸ ha)

theorem update {β : Type} {g : ℕ → β} {v : β} (h : Embeds ρ F T) (a : ℕ) :
    Function.update g (ρ d) v (ρ a) = Function.update (fun b => g (ρ b)) d v a :=
  Function.update_apply_of_injective g h.mono.injective d v a

theorem grow (h : Embeds ρ F T) (hp : ∀ b, p = .node b → b < F.size) :
    Embeds ρ (F.grow l y p) (T.grow l z (p.map ρ)) where
  label {a} ha := by
    replace ha : a < F.size + 1 := ha
    show Function.update T.label T.size l (ρ a) = Function.update F.label F.size l a
    rw [← h.size, h.update]
    by_cases he : a = F.size
    · rw [he, Function.update_self, Function.update_self]
    · rw [Function.update_of_ne he, Function.update_of_ne he, h.label (by omega)]
  parent {a} ha := by
    replace ha : a < F.size + 1 := ha
    show Function.update T.parent T.size (p.map ρ) (ρ a) = (Function.update F.parent F.size p a).map ρ
    rw [← h.size, h.update]
    by_cases he : a = F.size
    · rw [he, Function.update_self, Function.update_self]
    · rw [Function.update_of_ne he, Function.update_of_ne he, h.parent (by omega)]
  kids {d} hd := by
    replace hd : d < F.size + 1 := hd
    show T.kids (ρ d) = (F.kids d).map ρ
    by_cases he : d = F.size
    · rw [he, h.size, h.fresh le_rfl, h.closed.fresh le_rfl, List.map_nil]
    · exact h.kids (by omega)
  mono := h.mono
  tail i := by
    show ρ (F.size + 1 + i) = T.size + 1 + i
    rw [Nat.add_assoc, h.tail, Nat.add_assoc]
  cur := h.cur
  closed := h.closed.grow hp
  fresh hd := h.fresh (Nat.le_of_succ_le hd)

theorem setKids (h : Embeds ρ F T) (hd : d < F.size) (hk : ∀ a ∈ m, a < F.size) :
    Embeds ρ (F.setKids d m) (T.setKids (ρ d) (m.map ρ)) where
  label := h.label
  parent := h.parent
  kids {e} he := by
    show Function.update T.kids (ρ d) (m.map ρ) (ρ e) = (Function.update F.kids d m e).map ρ
    rw [h.update]
    by_cases hed : e = d
    · rw [hed, Function.update_self, Function.update_self]
    · rw [Function.update_of_ne hed, Function.update_of_ne hed, h.kids he]
  mono := h.mono
  tail := h.tail
  cur := h.cur
  closed := h.closed.setKids hd hk
  fresh {e} he := by
    show Function.update T.kids (ρ d) (m.map ρ) e = []
    have hlt := h.lt hd
    replace he : T.size ≤ e := he
    rw [Function.update_of_ne (by omega)]
    exact h.fresh he

theorem reparent (h : Embeds ρ F T) (hp : ∀ b, p = .node b → b < F.size) :
    Embeds ρ (F.reparent x p) (T.reparent (ρ x) (p.map ρ)) where
  label := h.label
  parent {a} ha := by
    show Function.update T.parent (ρ x) (p.map ρ) (ρ a) = (Function.update F.parent x p a).map ρ
    rw [h.update]
    by_cases he : a = x
    · rw [he, Function.update_self, Function.update_self]
    · rw [Function.update_of_ne he, Function.update_of_ne he, h.parent ha]
  kids := h.kids
  mono := h.mono
  tail := h.tail
  cur := h.cur
  closed := h.closed.reparent hp
  fresh := h.fresh

theorem relabel (h : Embeds ρ F T) (hx : x < F.size) : Embeds ρ (F.relabel x u) (T.relabel (ρ x) u) where
  label {a} ha := by
    show Function.update T.label (ρ x) _ (ρ a) = Function.update F.label x _ a
    rw [h.update, h.label hx]
    by_cases he : a = x
    · rw [he, Function.update_self, Function.update_self]
    · rw [Function.update_of_ne he, Function.update_of_ne he, h.label ha]
  parent := h.parent
  kids := h.kids
  mono := h.mono
  tail := h.tail
  cur := h.cur
  closed := h.closed.relabel
  fresh := h.fresh

theorem enter (h : Embeds ρ F T) (hp : ∀ b, p = .node b → b < F.size) :
    Embeds ρ { F with cur := p } { T with cur := p.map ρ } where
  toLike := ⟨h.label, h.parent, h.kids⟩
  mono := h.mono
  tail := h.tail
  cur := rfl
  closed := h.closed.enter hp
  fresh := h.fresh

/-- **A node that nothing leads to** takes a number of `T` alone. -/
theorem lose (h : Embeds ρ F T) :
    Embeds (fun a => if a < F.size then ρ a else ρ a + 1) F (T.grow l z p) := by
  have hne : ∀ {a}, a < F.size → ρ a ≠ T.size := fun ha => (h.lt ha).ne
  have hmap : ∀ q : Ptr ℕ, (∀ b, q = .node b → b < F.size) →
      q.map (fun a => if a < F.size then ρ a else ρ a + 1) = q.map ρ := by
    intro q hq
    cases q with
    | unassigned => rfl
    | null => rfl
    | node b => exact congrArg Ptr.node (if_pos (hq b rfl))
  constructor
  · constructor
    · intro a ha
      show Function.update T.label T.size l (if a < F.size then ρ a else ρ a + 1) = F.label a
      rw [if_pos ha, Function.update_of_ne (hne ha), h.label ha]
    · intro a ha
      show Function.update T.parent T.size p (if a < F.size then ρ a else ρ a + 1) = _
      rw [if_pos ha, Function.update_of_ne (hne ha), h.parent ha, hmap _ fun b hb => h.closed.parent ha hb]
    · intro d hd
      show T.kids (if d < F.size then ρ d else ρ d + 1) = _
      rw [if_pos hd, h.kids hd]
      exact List.map_congr_left fun a ha => (if_pos (h.closed.kids ha)).symm
  · intro a b hab
    have := h.mono hab
    dsimp only
    split <;> split <;> omega
  · intro i
    show (if F.size + i < F.size then ρ (F.size + i) else ρ (F.size + i) + 1) = T.size + 1 + i
    rw [if_neg (by omega), h.tail]
    omega
  · rw [hmap _ fun b hb => h.closed.cur hb]
    exact h.cur
  · exact h.closed
  · exact fun hd => h.fresh (Nat.le_of_succ_le hd)

/-- **A new child.** -/
theorem add (h : Embeds ρ F T) (hd : d < F.size) (hp : ∀ b, p = .node b → b < F.size) :
    Embeds ρ (F.add d l y p) (T.add (ρ d) l z (p.map ρ)) := by
  have hg := h.grow (l := l) (y := y) (z := z) hp
  have hs := hg.setKids (m := F.kids d ++ [F.size]) (Nat.lt_succ_of_lt hd) fun a ha => by
    show a < F.size + 1
    rcases List.mem_append.1 ha with ha | ha
    · exact Nat.lt_succ_of_lt (h.closed.kids ha)
    · rw [List.mem_singleton.1 ha]
      exact Nat.lt_succ_self _
  rw [List.map_append, List.map_singleton, h.size, ← h.kids hd] at hs
  exact hs

theorem takeWhile_congr {p q : ℕ → Bool} (h : ∀ a ∈ m, p a = q a) : m.takeWhile p = m.takeWhile q := by
  induction m with
  | nil => rfl
  | cons a m ih =>
    have hrest := ih fun b hb => h b (List.mem_cons_of_mem _ hb)
    rw [List.takeWhile_cons, List.takeWhile_cons, h a List.mem_cons_self, hrest]

theorem detach (h : Embeds ρ F T) (hd : d < F.size) (hx : x < F.size) :
    Embeds ρ (F.detach x d) (T.detach (ρ x) (ρ d)) := by
  have htake : ((T.kids (ρ d)).takeWhile fun a => (T.label a).name ≠ (T.label (ρ x)).name) =
      ((F.kids d).takeWhile fun a => (F.label a).name ≠ (F.label x).name).map ρ := by
    rw [h.kids hd, List.takeWhile_map, h.label hx]
    refine congrArg (List.map ρ) (takeWhile_congr fun a ha => ?_)
    rw [Function.comp_apply, h.label (h.closed.kids ha)]
  have hdrop : ((T.kids (ρ d)).dropWhile fun a => a ≠ ρ x).tail =
      (((F.kids d).dropWhile fun a => a ≠ x).tail).map ρ := by
    rw [h.kids hd, List.dropWhile_map, List.map_tail]
    simp only [Function.comp_def, ne_eq, h.mono.injective.eq_iff]
  unfold FileTree.detach
  rw [htake, hdrop, ← List.map_append]
  refine h.setKids hd fun a ha => ?_
  rcases List.mem_append.1 ha with ha | ha
  · exact h.closed.kids (List.takeWhile_subset _ ha)
  · exact h.closed.kids (List.dropWhile_subset _ (List.mem_of_mem_tail ha))

theorem moveTo (h : Embeds ρ F T) (hd : d < F.size) (hx : x < F.size) :
    Embeds ρ (F.moveTo x d u) (T.moveTo (ρ x) (ρ d) u) := by
  have hp : ∀ b, Ptr.node d = .node b → b < F.size := fun b hb => by
    cases hb
    exact hd
  have hs := ((h.relabel (u := u) hx).reparent (x := x) hp).setKids (m := F.kids d ++ [x]) hd fun a ha => by
    rcases List.mem_append.1 ha with ha | ha
    · exact h.closed.kids ha
    · rw [List.mem_singleton.1 ha]
      exact hx
  rw [List.map_append, List.map_singleton, ← h.kids hd] at hs
  exact hs

theorem addCopy (h : Embeds ρ F T) (hd : d < F.size) (hx : x < F.size) :
    Embeds ρ (F.addCopy x d u y) (T.addCopy (ρ x) (ρ d) u z) := by
  unfold FileTree.addCopy
  rw [h.label hx]
  refine (h.add hd fun b hb => by cases hb).reparent fun b hb => ?_
  cases hb
  exact Nat.lt_succ_of_lt hd

/-! ### The same command on both -/

theorem here_eq (h : Embeds ρ F T) : T.here = F.here.map ρ := by
  unfold here
  rw [h.cur]
  cases F.cur <;> rfl

theorem here_lt (h : Embeds ρ F T) (hd : F.here = some d) : d < F.size ∧ F.cur = .node d := by
  unfold here at hd
  cases hc : F.cur with
  | unassigned => rw [hc] at hd; cases hd
  | null => rw [hc] at hd; cases hd
  | node a =>
    rw [hc] at hd
    cases hd
    exact ⟨h.closed.cur hc, rfl⟩

theorem mkdir {dirname : CStr} (h : Embeds ρ F T) (hm : F.mkdir dirname y = some F') :
    ∃ T', T.mkdir dirname z = some T' ∧ Embeds ρ F' T' := by
  obtain ⟨d, hd, hm⟩ := Option.bind_eq_some_iff.1 hm
  split at hm
  · next hfit =>
    cases hm
    refine ⟨T.add (ρ d) ⟨dirname, .directory⟩ z T.cur, ?_, ?_⟩
    · rw [FileTree.mkdir, h.here_eq, hd]
      exact if_pos hfit
    · rw [h.cur]
      exact h.add (h.here_lt hd).1 fun b hb => h.closed.cur hb
  · cases hm

theorem cd {dirname : CStr} {b : Bool} (h : Embeds ρ F T) (hc : F.cd dirname = some (b, F')) :
    ∃ T', T.cd dirname = some (b, T') ∧ Embeds ρ F' T' := by
  obtain ⟨o, ho, hc⟩ := Option.map_eq_some_iff.1 hc
  have hw : T.walk (fun l => l.type = .directory) (fields slash dirname) (F.cur.map ρ) = _ :=
    h.walk h.closed fun a ha => h.closed.cur ha
  rw [← h.cur, ho] at hw
  rw [FileTree.cd, hw]
  cases o with
  | none =>
    cases hc
    exact ⟨T, rfl, h⟩
  | some q =>
    cases hc
    refine ⟨_, rfl, h.enter fun b hb => ?_⟩
    subst hb
    exact walk_lt h.closed (fun a ha => h.closed.cur ha) ho

theorem create {filename : CStr} {b : Bool} (h : Embeds ρ F T) (hc : F.create filename y = some (b, F')) :
    ∃ T', T.create filename z = some (b, T') ∧ Embeds ρ F' T' := by
  obtain ⟨d, hd, hc⟩ := Option.bind_eq_some_iff.1 hc
  have hlt := (h.here_lt hd).1
  rw [FileTree.create, h.here_eq, hd]
  simp only [Option.map_some, Option.bind_some, h.find h.closed hlt]
  cases hf : F.find d fun l => l.name = baseName filename with
  | some a =>
    rw [hf] at hc
    cases hc
    exact ⟨T, rfl, h⟩
  | none =>
    rw [hf] at hc
    dsimp only at hc
    split at hc
    · next hfit =>
      cases hc
      refine ⟨_, if_pos hfit, ?_⟩
      rw [h.cur]
      exact h.add hlt fun b hb => h.closed.cur hb
    · cases hc

theorem get {file : CStr} {a : ℕ} (h : Embeds ρ F T) (hg : F.get file = some a) :
    T.get file = some (ρ a) ∧ a < F.size := by
  obtain ⟨d, hd, hg⟩ := Option.bind_eq_some_iff.1 hg
  have hlt := (h.here_lt hd).1
  refine ⟨?_, lt_of_find h.closed hg⟩
  rw [FileTree.get, h.here_eq, hd]
  simp only [Option.map_some, Option.bind_some, h.find h.closed hlt, hg]

theorem taken_eq {file : CStr} (h : Embeds ρ F T) (hd : d < F.size) : T.taken (ρ d) file = (F.taken d file).map ρ := by
  have hlt : ∀ a ∈ F.kids d, a < F.size := fun a ha => h.closed.kids ha
  rw [taken, taken, h.kids hd]
  generalize F.kids d = m at hlt
  cases m with
  | nil => rfl
  | cons a m =>
    rw [List.map_cons]
    dsimp only
    rw [h.label (hlt a List.mem_cons_self)]
    split
    · rfl
    · rw [List.find?_map]
      refine congrArg (Option.map ρ) (List.find?_congr fun b hb => ?_)
      rw [Function.comp_apply, h.label (hlt b (List.mem_cons_of_mem _ hb))]

theorem remove {file : CStr} {a : ℕ} (h : Embeds ρ F T) (hr : F.remove file = some (a, F')) :
    ∃ T', T.remove file = some (ρ a, T') ∧ Embeds ρ F' T' := by
  obtain ⟨d, hd, hr⟩ := Option.bind_eq_some_iff.1 hr
  obtain ⟨v, hv, hr⟩ := Option.map_eq_some_iff.1 hr
  cases hr
  have hlt := (h.here_lt hd).1
  rw [FileTree.remove, h.here_eq, hd]
  simp only [Option.map_some, Option.bind_some, h.taken_eq hlt, hv]
  refine ⟨_, rfl, ?_⟩
  have hs := h.setKids (m := (F.kids d).erase a) hlt fun b hb => h.closed.kids (List.mem_of_mem_erase hb)
  rwa [List.map_erase h.mono.injective, ← h.kids hlt] at hs

theorem move {source destination : CStr} {b : Bool} (h : Embeds ρ F T) (hm : F.move source destination = some (b, F')) :
    ∃ T', T.move source destination = some (b, T') ∧ Embeds ρ F' T' := by
  have hcur : ∀ a, F.cur = .node a → a < F.size := fun a ha => h.closed.cur ha
  have hwalk : T.walk (fun _ => true) (fields slash source) (F.cur.map ρ) = _ := h.walk h.closed hcur
  rw [← h.cur] at hwalk
  unfold FileTree.move at hm ⊢
  rw [hwalk]
  split at hm
  · next hw =>
    cases hm
    rw [hw]
    exact ⟨T, rfl, h⟩
  · next x hw =>
    have hx := walk_lt h.closed hcur hw
    rw [hw]
    simp only [Option.map_some, Ptr.map_node, h.parent hx]
    split at hm
    · next par hpar =>
      have hlt := h.closed.parent hx hpar
      rw [hpar]
      simp only [Ptr.map_node]
      split at hm
      · next hmem =>
        rw [if_pos (by rw [h.kids hlt]; exact List.mem_map_of_mem hmem)]
        have hdet := h.detach hlt hx
        have hdest : (T.detach (ρ x) (ρ par)).dest (fields slash destination) (F.cur.map ρ) = _ :=
          hdet.dest hdet.closed hcur
        rw [← h.cur] at hdest
        rw [hdest]
        split at hm
        · next d flag new hd =>
          have hdlt := dest_lt hdet.closed hcur hd
          rw [hd]
          simp only [Option.map_some, mapDest, Ptr.map_node]
          rw [hdet.label hdlt]
          split at hm
          · next hbad =>
            cases hm
            exact ⟨_, if_pos hbad, hdet⟩
          · next hok =>
            rw [if_neg hok]
            split at hm
            · next hfit =>
              cases hm
              exact ⟨_, if_pos hfit, hdet.moveTo hdlt hx⟩
            · cases hm
        · cases hm
      · cases hm
    · cases hm
  · cases hm

theorem copying {source destination : CStr} {r : Copying} (h : Embeds ρ F T)
    (hc : F.copying source destination = some r) : T.copying source destination = some (r.map ρ) ∧ r.Made F := by
  have hcur : ∀ a, F.cur = .node a → a < F.size := fun a ha => h.closed.cur ha
  have hwalk : T.walk (fun _ => true) (fields slash source) (F.cur.map ρ) = _ := h.walk h.closed hcur
  have hdest : T.dest (fields slash destination) (F.cur.map ρ) = _ := h.dest h.closed hcur
  rw [← h.cur] at hwalk hdest
  unfold FileTree.copying at hc ⊢
  rw [hwalk, hdest]
  split at hc
  · next hw =>
    cases hc
    rw [hw]
    exact ⟨rfl, trivial⟩
  · next x hw =>
    have hx := walk_lt h.closed hcur hw
    rw [hw]
    simp only [Option.map_some, Ptr.map_node]
    split at hc
    · next d flag new hd =>
      have hdlt := dest_lt h.closed hcur hd
      rw [hd]
      simp only [Option.map_some, mapDest, Ptr.map_node]
      rw [h.label hdlt]
      split at hc
      · next hbad =>
        cases hc
        exact ⟨if_pos hbad, hx⟩
      · next hok =>
        rw [if_neg hok]
        split at hc
        · next hfit =>
          cases hc
          exact ⟨if_pos hfit, hx, hdlt⟩
        · cases hc
    · cases hc
  · cases hc

end Embeds

end FileTree

end NetProg.NameServer
