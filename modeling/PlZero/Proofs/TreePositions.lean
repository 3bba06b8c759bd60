import PlZero.Proofs.FragmentReading
import PlZero.Proofs.LaidOutTrees

set_option autoImplicit false

namespace PlZero

open Phrase

namespace Node

theorem sizeOf_lt_of_mem_children {a b : Node} (mem : b ∈ a.children) : sizeOf b < sizeOf a := by
  cases a with
  | unary | typecast | print | binary =>
    simp only [children, List.mem_cons, List.not_mem_nil, or_false] at mem
    rcases mem with rfl | rfl <;> simp +arith
  | assignment pos | call pos | input pos | procedure pos | program pos =>
    cases pos
    simp only [children, List.mem_cons, List.not_mem_nil, or_false] at mem
    rcases mem with rfl | rfl <;> simp +arith
  | condition c =>
    cases c
    simp only [children, List.mem_cons, Option.mem_toList] at mem
    rcases mem with rfl | rfl <;> simp +arith
  | conditional pos | loop pos =>
    cases pos
    simp only [children, List.mem_cons, Option.mem_toList] at mem
    rcases mem with rfl | rfl <;> simp +arith
  | sequence _ body =>
    have smaller : sizeOf b < sizeOf body := List.sizeOf_lt_of_mem mem
    simp +arith
    omega
  | block body =>
    have smaller : sizeOf b < sizeOf body.body := List.sizeOf_lt_of_mem mem
    cases body
    simp +arith at smaller ⊢
    omega
  | declarations pos group =>
    obtain ⟨d, among, rfl⟩ := List.mem_map.1 mem
    have smaller := List.sizeOf_lt_of_mem among
    cases pos
    simp +arith
    omega
  | declaration d =>
    cases d
    simp only [children, Option.mem_toList, Option.map_eq_some_iff] at mem
    obtain ⟨_, rfl, rfl⟩ := mem
    simp +arith
  | identifier | literal | exitMarker | unknown => cases mem

/-- The nodes of a tree, each before those below it, and these in the order of the text. -/
def preorder (a : Node) : List Node :=
  a :: a.children.attach.flatMap fun b => b.1.preorder
termination_by sizeOf a
decreasing_by exact sizeOf_lt_of_mem_children b.2

theorem preorder_eq (a : Node) : a.preorder = a :: a.children.flatMap preorder := by
  rw [preorder, List.flatMap_subtype (g := preorder) (fun _ _ => rfl), List.unattach_attach]

theorem Within.mem_preorder {a d : Node} (within : d.Within a) : d ∈ a.preorder := by
  induction within with
  | refl => rw [preorder_eq]; exact List.mem_cons_self
  | inside mem _ ih =>
    rw [preorder_eq]
    exact List.mem_cons_of_mem _ (List.mem_flatMap.2 ⟨_, mem, ih⟩)

theorem within_of_mem_preorder {a d : Node} (mem : d ∈ a.preorder) : d.Within a := by
  rw [preorder_eq, List.mem_cons, List.mem_flatMap] at mem
  rcases mem with rfl | ⟨b, below, inside⟩
  · exact .refl
  · exact .inside below (within_of_mem_preorder inside)
termination_by sizeOf a
decreasing_by exact sizeOf_lt_of_mem_children below

theorem mem_preorder {a d : Node} : d ∈ a.preorder ↔ d.Within a :=
  ⟨within_of_mem_preorder, Within.mem_preorder⟩

end Node

def InOrder (u : List Token) : Prop := u.Pairwise fun s t => s.pos.offset ≤ t.pos.offset

section

variable {u rest : List Token} {next t : Token}

theorem exists_headD_cons (rest : List Token) (next : Token) :
    ∃ more, rest ++ [next] = rest.headD next :: more := by
  cases rest with
  | nil => exact ⟨[], rfl⟩
  | cons t rest => exact ⟨rest ++ [next], rfl⟩

theorem InOrder.head_le (order : InOrder (u ++ [next])) (mem : t ∈ u ++ [next]) :
    (u.headD next).pos.offset ≤ t.pos.offset := by
  obtain ⟨more, whole⟩ := exists_headD_cons u next
  rw [InOrder, whole, List.pairwise_cons] at order
  rw [whole, List.mem_cons] at mem
  rcases mem with rfl | mem
  · exact Int.le_refl _
  · exact order.1 t mem

theorem InOrder.head_le_next (order : InOrder (u ++ [next])) :
    (u.headD next).pos.offset ≤ next.pos.offset :=
  order.head_le (List.mem_append_right _ (List.mem_singleton.2 rfl))

theorem InOrder.run {gap : List Token} (order : InOrder (gap ++ (u ++ rest) ++ [next])) :
    InOrder (u ++ [rest.headD next]) ∧ InOrder (rest ++ [next]) := by
  obtain ⟨more, whole⟩ := exists_headD_cons rest next
  simp only [InOrder, List.append_assoc] at order ⊢
  have inner := (List.pairwise_append.1 order).2.1
  refine ⟨inner.sublist ?_, (List.pairwise_append.1 inner).2.1⟩
  rw [whole]
  exact List.Sublist.append_left (List.singleton_sublist.2 List.mem_cons_self) u

structure Ordered (first last : Token) (nodes : List Node) : Prop where
  sorted : nodes.Pairwise fun a b => a.pos.offset ≤ b.pos.offset
  low : ∀ a ∈ nodes, first.pos.offset ≤ a.pos.offset
  high : ∀ a ∈ nodes, a.pos.offset ≤ last.pos.offset

theorem Ordered.preorder {a : Node} (stands : a.pos = (u.headD next).pos)
    (order : InOrder (u ++ [next]))
    (inside : Ordered (u.headD next) next (a.children.flatMap Node.preorder)) :
    Ordered (u.headD next) next a.preorder := by
  rw [Node.preorder_eq]
  refine ⟨List.pairwise_cons.2 ⟨?_, inside.sorted⟩, List.forall_mem_cons.2 ⟨?_, inside.low⟩,
    List.forall_mem_cons.2 ⟨?_, inside.high⟩⟩
  · rw [stands]; exact inside.low
  · rw [stands]
  · rw [stands]; exact order.head_le_next

theorem Ordered.append {first middle last : Token} {as bs : List Node}
    (before : first.pos.offset ≤ middle.pos.offset) (after : middle.pos.offset ≤ last.pos.offset)
    (left : Ordered first middle as) (right : Ordered middle last bs) :
    Ordered first last (as ++ bs) := by
  refine ⟨List.pairwise_append.2 ⟨left.sorted, right.sorted, fun a mem b mem' => ?_⟩,
    List.forall_mem_append.2 ⟨left.low, fun b mem => ?_⟩,
    List.forall_mem_append.2 ⟨fun a mem => ?_, right.high⟩⟩
  · exact Int.le_trans (left.high a mem) (right.low b mem')
  · exact Int.le_trans before (right.low b mem)
  · exact Int.le_trans (left.high a mem) after

theorem Ordered.widen {first first' last : Token} {nodes : List Node}
    (before : first'.pos.offset ≤ first.pos.offset) (ordered : Ordered first last nodes) :
    Ordered first' last nodes :=
  ⟨ordered.sorted, fun a mem => Int.le_trans before (ordered.low a mem), ordered.high⟩

-- The token after a tree is where the next tree can start at the earliest.
theorem LaidOut.ordered {as : List Node} (laid : LaidOut u next as)
    (order : InOrder (u ++ [next])) :
    Ordered (u.headD next) next (as.flatMap Node.preorder) := by
  induction laid with
  | nil => exact ⟨.nil, nofun, nofun⟩
  | @cons gap u rest next a as reads inside later first second =>
    obtain ⟨own, others⟩ := order.run
    have tree := (first own).preorder reads.pos own
    obtain ⟨more, whole⟩ := exists_headD_cons (u ++ rest) next
    have start : (u ++ rest).headD next ∈ gap ++ (u ++ rest) ++ [next] := by
      rw [List.append_assoc, whole]
      exact List.mem_append_right _ List.mem_cons_self
    have start := order.head_le start
    rw [headD_append u rest] at start
    have trees := tree.append own.head_le_next others.head_le_next (second others)
    exact trees.widen start

theorem LaidOut.part {as : List Node} {a d : Node} (laid : LaidOut u next as) (mem : a ∈ as)
    (within : d.Within a) :
    ∃ before v t after, u ++ [next] = before ++ (v ++ t :: after) ∧ ReadAs v t d := by
  induction laid generalizing a with
  | nil => cases mem
  | @cons gap u rest next b as reads inside later first second =>
    obtain ⟨more, whole⟩ := exists_headD_cons rest next
    rcases List.mem_cons.1 mem with rfl | mem
    · cases within with
      | refl => exact ⟨gap, u, _, more, by simp [whole], reads⟩
      | inside below within =>
        obtain ⟨before, v, t, after, eq, reads⟩ := first below within
        refine ⟨gap ++ before, v, t, after ++ more, ?_, reads⟩
        simp only [List.append_assoc, whole]
        rw [← List.cons_append, ← List.append_assoc v, ← List.append_assoc before, ← eq]
        simp
    · obtain ⟨before, v, t, after, eq, reads⟩ := second mem within
      exact ⟨gap ++ (u ++ before), v, t, after, by simp [eq], reads⟩

end

section Scanning

theorem Cursor.offset_le_next {c after : Cursor} {t : Token} (next : c.next = (.ok t, after)) :
    c.pos.offset ≤ t.pos.offset ∧ (t.kind ≠ .eof → t.pos.offset ≤ after.pos.offset) := by
  refine ⟨?_, fun notEnd => ?_⟩
  · have skipped : c.pos.offset ≤ c.skipBlanks.pos.offset := by
      rw [Cursor.skipBlanks, Position.offset_advanceAll]
      omega
    unfold Cursor.next at next
    dsimp only at next
    split at next
    · cases next
      exact skipped
    · obtain ⟨token, rfl⟩ := Prod.mk.inj next
      unfold Lexeme.token at token
      split at token
      · cases token
        exact skipped
      · cases token
  · obtain ⟨blanks, x, _, _, _, place, after⟩ := Cursor.lexical_of_next next notEnd
    rw [place, after, Position.offset_advanceAll, Position.offset_advanceAll, List.length_append]
    omega

theorem Cursor.inOrder_feed (c : Cursor) {e : Token} (last : c.feed.last = .ok e) :
    InOrder (c.feed.tokens ++ [e]) ∧ ∀ t ∈ c.feed.tokens ++ [e], c.pos.offset ≤ t.pos.offset := by
  fun_induction Cursor.feed c with
  | case1 c t after next _ =>
    cases last
    exact ⟨List.pairwise_singleton _ _, List.forall_mem_singleton.2 (offset_le_next next).1⟩
  | case2 c t after next notEnd ih =>
    obtain ⟨order, later⟩ := ih last
    obtain ⟨here, passed⟩ := offset_le_next next
    have behind : ∀ s ∈ after.feed.tokens ++ [e], t.pos.offset ≤ s.pos.offset :=
      fun s mem => Int.le_trans (passed notEnd) (later s mem)
    exact ⟨List.pairwise_cons.2 ⟨behind, order⟩, List.forall_mem_cons.2
      ⟨here, fun s mem => Int.le_trans here (behind s mem)⟩⟩
  | case3 => cases last

end Scanning

theorem ReadAs.exitMarker {u : List Token} {next : Token} {pos : Position}
    (reads : ReadAs u next (.exitMarker pos)) : next.kind = .dot ∧ pos = next.pos := by
  cases reads with
  | exit closes => exact ⟨closes, rfl⟩
  | statement phrase | constants phrase | vars phrase | procedure phrase => nomatch phrase

theorem ReadAs.binary {u : List Token} {next : Token} {pos : Position}
    {operator : BinaryOperator} {a b : Node} (reads : ReadAs u next (.binary pos operator a b)) :
    ∃ start v sign w n, u = start :: v ++ sign :: w ∧
      (IsUnary n (start :: v) a ∨ IsTerm n (start :: v) sign a) ∧ pos = start.pos := by
  cases reads with
  | product left => exact ⟨_, _, _, _, _, rfl, .inl left, rfl⟩
  | sum left => exact ⟨_, _, _, _, _, rfl, .inr left, rfl⟩
  | statement phrase | constants phrase | vars phrase | procedure phrase => nomatch phrase

theorem Phrase.IsProgram.exitMarker {n : Nat} {u : List Token} {p : Program} {e : Token}
    (phrase : IsProgram n u p) (ends : e.kind = .eof) :
    ∃ before point, u = before ++ [point] ∧ point.kind = .dot ∧
      ∀ pos, (Node.exitMarker pos).Within p.node ↔ pos = point.pos := by
  have laid := phrase.laidOut e
  cases phrase with
  | @mk v point b body closes =>
    refine ⟨v, point, rfl, closes, fun pos => ⟨fun within => ?_, ?_⟩⟩
    · cases within with
      | inside mem within =>
        obtain ⟨before, w, t, after, eq, reads⟩ := laid.part mem within
        obtain ⟨dot, rfl⟩ := reads.exitMarker
        have mem : t ∈ v ++ [point] ++ [e] := by simp [eq]
        simp only [List.mem_append, List.mem_singleton] at mem
        rcases mem with (mem | rfl) | rfl
        · exact absurd dot (body.dot_not_mem t mem)
        · rfl
        · rw [ends] at dot
          cases dot
    · rintro rfl
      cases body
      refine .inside (List.mem_singleton.2 rfl) (.of_mem (List.mem_append_right _ ?_))
      simp [exitAt, closes]

structure Program.StandsIn (p : Program) (tokens : List Token) (ends : Token) : Prop where
  token : ∀ d ∈ p.node.preorder, ∃ t ∈ tokens, d.pos = t.pos
  sorted : (p.node.preorder.map fun d => d.pos.offset).Pairwise (· ≤ ·)
  whole : ReadAs tokens ends p.node
  inside : LaidOut tokens ends p.node.children
  first : ∀ d ∈ p.node.preorder, ∃ before u next after,
    tokens ++ [ends] = before ++ (u ++ next :: after) ∧ ReadAs u next d ∧
      d.pos = (u.headD next).pos ∧ (u = [] → (∃ b, d = .block b) ∨ d = .exitMarker next.pos)
  left : ∀ pos operator a b, Node.binary pos operator a b ∈ p.node.preorder →
    ∃ before start u sign after n, tokens ++ [ends] = before ++ (start :: u ++ sign :: after) ∧
      (IsUnary n (start :: u) a ∨ IsTerm n (start :: u) sign a) ∧ pos = start.pos
  exit : ∃ before point, tokens = before ++ [point] ∧ point.kind = .dot ∧
    ∀ pos, Node.exitMarker pos ∈ p.node.preorder ↔ pos = point.pos

/-- Every node of a program stands at the first token that it was read from, the nodes below it are
read from later runs of its tokens, and going through the tree never goes back in the text. -/
theorem nodes_stand_in_order {source : String} {p : Program} (accepted : parse source = .ok p) :
    ∃ ends, (scan source).last = .ok ends ∧ p.StandsIn (scan source).tokens ends := by
  obtain ⟨⟨ends, last⟩, phrase⟩ := isProgram_of_parse accepted
  have laid := phrase.laidOut ends
  have order := ((Cursor.ofSource source).inOrder_feed last).1
  have reads : ReadAs (scan source).tokens ends p.node := .program phrase
  have part {d : Node} (mem : d ∈ p.node.preorder) :=
    (LaidOut.one reads laid).part (List.mem_singleton.2 rfl) (Node.mem_preorder.1 mem)
  refine ⟨ends, last, ?token, ?sorted, reads, laid, ?first, ?left, ?exit⟩
  case token =>
    intro d mem
    have stand : AllAt (fun pos => ∃ t ∈ (scan source).tokens, pos = t.pos) (scan source).tokens :=
      fun t mem => ⟨t, mem, rfl⟩
    exact phrase.placed stand d (Node.mem_preorder.1 mem)
  case sorted => exact List.pairwise_map.2 ((laid.ordered order).preorder reads.pos order).sorted
  case first =>
    intro d mem
    obtain ⟨before, u, next, after, eq, reads⟩ := part mem
    exact ⟨before, u, next, after, eq, reads, reads.pos, fun none => (none ▸ reads).of_nil⟩
  case left =>
    intro pos operator a b mem
    obtain ⟨before, u, next, after, eq, reads⟩ := part mem
    obtain ⟨start, v, sign, w, n, rfl, left, place⟩ := reads.binary
    exact ⟨before, start, v, sign, w ++ next :: after, n, by simp [eq], left, place⟩
  case exit =>
    simp only [Node.mem_preorder]
    exact phrase.exitMarker ((scan_proper source).ends ends last)

-- A procedure with an empty block, parentheses around a left operand and below a sign.
theorem nodes_stand_in_order_parentheses :
    ∃ p, parse "procedure p;;\nx := ((y) - 1) * -(int) ('2')." = .ok p ∧
      ∃ ends, (scan "procedure p;;\nx := ((y) - 1) * -(int) ('2').").last = .ok ends ∧
        p.StandsIn (scan "procedure p;;\nx := ((y) - 1) * -(int) ('2').").tokens ends := by
  have ok : (parse "procedure p;;\nx := ((y) - 1) * -(int) ('2').").isOk = true := by
    decide +kernel
  cases accepted : parse "procedure p;;\nx := ((y) - 1) * -(int) ('2')." with
  | error f => rw [accepted] at ok; cases ok
  | ok p => exact ⟨p, rfl, nodes_stand_in_order accepted⟩

end PlZero
