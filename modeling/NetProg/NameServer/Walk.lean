import NetProg.NameServer.Heap

/-!
# The loops of the name server

The `while` loops of `fileNameServer.c`, each as a function of the heap.  A loop along `next` has as many rounds as the
heap has nodes, and one to find the null pointer: a walk that is still going on then has come to a node twice and never
ends, which is the fault `diverge`.

* `find`: the lookup loops, with the test of the loop as an argument;
* `cdWalk`, `walkSource`, `walkDestination`: the path loops of `changeDirectory`, of the source and of the destination
  in `movefile` and `copyfile`;
* `attach`: linking a node in, last on a child chain; `unlink` and `removeChild`: the two unlinking loops.
-/

namespace NetProg.NameServer

open NetProg.Lib

/-- The delimiter of paths. -/
def slash : Byte := 47

def dot : CStr := lit "."
def dotdot : CStr := lit ".."

/-- `while(temp!=NULL) { if(hit(temp)) break; temp=temp->next; }`: the node the loop breaks at, if it does. -/
def find (h : Heap) (hit : Node → Bool) : ℕ → Ptr ℕ → Except Fault (Option ℕ)
  | 0, _ => .error .diverge
  | _ + 1, .null => .ok none
  | fuel + 1, p => do
    let (a, n) ← deref h p
    if hit n then .ok (some a) else find h hit fuel n.next

/-- The rounds a loop along `next` can have before it has come to a node twice. -/
def rounds (h : Heap) : ℕ := h.length + 1

/-- The loop that looks for a name. -/
def lookup (h : Heap) (found : CStr) (p : Ptr ℕ) : Except Fault (Option ℕ) :=
  find h (fun n => n.name = found) (rounds h) p

/-- The loop that looks for a file of a name. -/
def lookupFile (h : Heap) (file : CStr) (p : Ptr ℕ) : Except Fault (Option ℕ) :=
  find h (fun n => n.name = file && n.type = .file) (rounds h) p

/-! ### Paths -/

/-- The loop of `changeDirectory` over the components of the path: the value of `temp_cur` at its end, or `none` where
it sets `flag`. -/
def cdWalk (h : Heap) : List CStr → Ptr ℕ → Except Fault (Option (Ptr ℕ))
  | [], temp_cur => .ok (some temp_cur)
  | found :: rest, temp_cur =>
    if found = dotdot then do
      let (_, n) ← deref h temp_cur
      cdWalk h rest n.parent
    else if found = dot then cdWalk h rest temp_cur
    else do
      let (_, n) ← deref h temp_cur
      match ← lookup h found n.child with
      | none => .ok none
      | some a => do
        let (_, m) ← deref h (.node a)
        if m.type = .directory then cdWalk h rest (.node a) else .ok none

/-- The loop of `movefile` and `copyfile` over the source path: `temp_cur` at its end, or `none` where it sets
`flag`. -/
def walkSource (h : Heap) : List CStr → Ptr ℕ → Except Fault (Option (Ptr ℕ))
  | [], temp_cur => .ok (some temp_cur)
  | found :: rest, temp_cur =>
    if found = dotdot then do
      let (_, n) ← deref h temp_cur
      walkSource h rest n.parent
    else if found = dot then walkSource h rest temp_cur
    else do
      let (_, n) ← deref h temp_cur
      match ← lookup h found n.child with
      | none => .ok none
      | some a => walkSource h rest (.node a)

/-- Where the loop over the destination path ends: `temp_cur2`, `flag`, and `found2` when `flag2` is set. -/
structure Destination where
  temp_cur2 : Ptr ℕ
  flag : Bool
  found2 : Option CStr

/-- The loop of `movefile` and `copyfile` over the destination path.  A missing last component is a new name, any other
missing component an error. -/
def walkDestination (h : Heap) : List CStr → Ptr ℕ → Except Fault Destination
  | [], temp_cur2 => .ok ⟨temp_cur2, false, none⟩
  | found :: rest, temp_cur2 =>
    if found = dotdot then do
      let (_, n) ← deref h temp_cur2
      walkDestination h rest n.parent
    else if found = dot then walkDestination h rest temp_cur2
    else do
      let (_, n) ← deref h temp_cur2
      match ← lookup h found n.child with
      | none => .ok (if rest = [] then ⟨temp_cur2, false, some found⟩ else ⟨temp_cur2, true, none⟩)
      | some a => walkDestination h rest (.node a)

/-! ### Linking in and unlinking -/

/-- `while(lastchild->next!=NULL) lastchild=lastchild->next;` -/
def findLast (h : Heap) : ℕ → Ptr ℕ → Except Fault ℕ
  | 0, _ => .error .diverge
  | fuel + 1, p => do
    let (a, n) ← deref h p
    if n.next = .null then .ok a else findLast h fuel n.next

/-- The node at `x` is linked in, last on the child chain of the node `d` points to. -/
def attach (h : Heap) (d : Ptr ℕ) (x : ℕ) : Except Fault Heap := do
  let (c, n) ← deref h d
  if n.child = .null then .ok (setChild h c (.node x))
  else do
    let lastchild ← findLast h (rounds h) n.child
    .ok (setNext h lastchild (.node x))

/-- The second unlinking loop of `movefile`: it stops at the first node that bears the name of the moved one. -/
def unlinkLoop (h : Heap) (x : ℕ) (xn : Node) : ℕ → ℕ → Ptr ℕ → Except Fault Heap
  | 0, _, _ => .error .diverge
  | _ + 1, _, .null => .ok h
  | fuel + 1, prev, temp => do
    let (a, n) ← deref h temp
    if n.name = xn.name then .ok (setNext (setNext h prev xn.next) x .null)
    else unlinkLoop h x xn fuel a n.next

/-- `movefile` unlinks the source from the child chain of the directory its field `parent` points to. -/
def unlink (h : Heap) (x : ℕ) : Except Fault Heap := do
  let (_, xn) ← deref h (.node x)
  let (par, pn) ← deref h xn.parent
  let (c, cn) ← deref h pn.child
  if cn.name = xn.name then .ok (setNext (setChild h par xn.next) x .null)
  else unlinkLoop h x xn (rounds h) c (.node c)

/-- The loop of `removefile` behind the first child: the node it removes, and the heap without it. -/
def removeLoop (h : Heap) (file : CStr) : ℕ → ℕ → Ptr ℕ → Except Fault (Option (ℕ × Heap))
  | 0, _, _ => .error .diverge
  | _ + 1, _, .null => .ok none
  | fuel + 1, prev, temp => do
    let (a, n) ← deref h temp
    if n.name = file ∧ n.type = .file then .ok (some (a, setNext (setNext h prev n.next) a .null))
    else removeLoop h file fuel a n.next

/-- `removefile` takes a child of the current directory off its chain.  The first child goes by its name alone, any
other one must be a file. -/
def removeChild (h : Heap) (cur : Ptr ℕ) (file : CStr) : Except Fault (Option (ℕ × Heap)) := do
  let (c, cn) ← deref h cur
  if cn.child = .null then .ok none
  else do
    let (a, n) ← deref h cn.child
    if n.name = file then .ok (some (a, setNext (setChild h c n.next) a .null))
    else removeLoop h file (rounds h) a (.node a)

end NetProg.NameServer
