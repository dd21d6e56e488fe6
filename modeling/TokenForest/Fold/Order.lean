import TokenForest.Row

set_option autoImplicit false

namespace TokenForest

structure Marker where
  index : Nat
  operator : Operator
  deriving DecidableEq, Repr, Inhabited

namespace Marker

def Before (m n : Marker) : Prop :=
  n.operator.precedence < m.operator.precedence ∨
    m.operator.precedence = n.operator.precedence ∧ m.index < n.index

theorem Before.trans {l m n : Marker} (h : l.Before m) (h' : m.Before n) : l.Before n := by
  unfold Before at *
  omega

def scan (start : Nat) : List Entry → List Marker
  | [] => []
  | e :: es =>
    match e.node.marker? with
    | some op => ⟨start, op⟩ :: scan (start + 1) es
    | none => scan (start + 1) es

def insert (m : Marker) : List Marker → List Marker
  | [] => [m]
  | n :: ns =>
    if m.operator.precedence < n.operator.precedence then n :: m.insert ns else m :: n :: ns

def sort (ms : List Marker) : List Marker := ms.foldr insert []

def ordered (entries : List Entry) : List Marker := sort (scan 0 entries)

theorem le_index_of_mem_scan {start : Nat} {entries : List Entry} {m : Marker}
    (h : m ∈ scan start entries) : start ≤ m.index := by
  induction entries generalizing start with
  | nil => cases h
  | cons e es ih =>
    unfold scan at h
    split at h
    · rcases List.mem_cons.1 h with rfl | h
      · exact Nat.le_refl _
      · exact Nat.le_of_succ_le (ih h)
    · exact Nat.le_of_succ_le (ih h)

theorem pairwise_scan (start : Nat) (entries : List Entry) :
    (scan start entries).Pairwise fun m n => m.index < n.index := by
  induction entries generalizing start with
  | nil => exact .nil
  | cons e es ih =>
    unfold scan
    split
    · exact .cons (fun n hn => le_index_of_mem_scan hn) (ih _)
    · exact ih _

theorem insert_perm (m : Marker) (ns : List Marker) : (m.insert ns).Perm (m :: ns) := by
  induction ns with
  | nil => exact .refl _
  | cons n ns ih =>
    unfold insert
    split
    · exact (ih.cons n).trans (.swap m n ns)
    · exact .refl _

theorem sort_perm (ms : List Marker) : (sort ms).Perm ms := by
  induction ms with
  | nil => exact .refl _
  | cons m ms ih => exact (insert_perm m (sort ms)).trans (ih.cons m)

theorem pairwise_insert {m : Marker} {ns : List Marker} (hm : ∀ n ∈ ns, m.index < n.index)
    (hn : ns.Pairwise Before) : (m.insert ns).Pairwise Before := by
  induction hn with
  | nil => exact List.pairwise_singleton _ _
  | @cons n ns h hs ih =>
    unfold insert
    split
    · rename_i hlt
      refine .cons (fun x hx => ?_) (ih fun x hx => hm x (.tail _ hx))
      rcases List.mem_cons.1 ((insert_perm m ns).mem_iff.1 hx) with rfl | hx
      · exact .inl hlt
      · exact h x hx
    · rename_i hle
      have hmn : m.Before n := by
        have := hm n (.head _)
        unfold Before
        omega
      refine .cons (fun x hx => ?_) (.cons h hs)
      rcases List.mem_cons.1 hx with rfl | hx
      · exact hmn
      · exact hmn.trans (h x hx)

theorem pairwise_sort {ms : List Marker} (h : ms.Pairwise fun m n => m.index < n.index) :
    (sort ms).Pairwise Before := by
  induction h with
  | nil => exact .nil
  | @cons m ms h _ ih => exact pairwise_insert (fun n hn => h n ((sort_perm ms).mem_iff.1 hn)) ih

theorem ordered_perm (entries : List Entry) : (ordered entries).Perm (scan 0 entries) :=
  sort_perm _

theorem pairwise_ordered (entries : List Entry) : (ordered entries).Pairwise Before :=
  pairwise_sort (pairwise_scan 0 entries)

end Marker

/-- Folds an operator with the entries on its two sides. Both have to be there and be operands;
only then is the depth of the new tree looked at. -/
def Operator.join (limit : Nat) (op : Operator) : Option Entry → Option Entry → Except Fault Entry
  | some left, some right =>
    if left.isOperand && right.isOperand then
      if limit < max left.depth right.depth + 1 then .error ⟨.tooDeep limit, op.position⟩
      else .ok ⟨.binary op left.node right.node, max left.depth right.depth + 1⟩
    else .error ⟨.missingOperand op.symbol, op.position⟩
  | _, _ => .error ⟨.missingOperand op.symbol, op.position⟩

end TokenForest
