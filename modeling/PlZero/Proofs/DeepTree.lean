import PlZero.Proofs.ProgramReading
import PlZero.Proofs.PhraseContext
import PlZero.Proofs.Spelling
import PlZero.Tree.Outline

set_option autoImplicit false

namespace PlZero

open Phrase

theorem Json.depth_le_depthOfFields {key : String} {value : Json} {fields : List (String × Json)}
    (mem : (key, value) ∈ fields) : value.depth ≤ depthOfFields fields := by
  induction fields with
  | nil => cases mem
  | cons field fields ih =>
    obtain ⟨key', value'⟩ := field
    rw [depthOfFields]
    rcases List.mem_cons.1 mem with same | mem
    · cases same
      omega
    · have le := ih mem
      omega

theorem depth_lt_outline {variety key : String} {pos : Position} {own : List (String × Json)}
    {value : Json} (mem : (key, value) ∈ own) : value.depth < (outline variety pos own).depth := by
  have le := Json.depth_le_depthOfFields
    (List.mem_cons_of_mem ("kind", .text variety) (List.mem_append_right pos.fields mem))
  exact Nat.lt_succ_of_le le

theorem Node.depth_lt_unary (pos : Position) (operator : UnaryOperator) (a : Node) :
    a.outline.depth < (Node.unary pos operator a).outline.depth := by
  rw [Node.outline]
  exact depth_lt_outline (List.mem_cons_of_mem _ (List.mem_singleton.2 rfl))

theorem Node.depth_lt_print (pos : Position) (a : Node) :
    a.outline.depth < (Node.print pos a).outline.depth := by
  rw [Node.outline]
  exact depth_lt_outline (List.mem_singleton.2 rfl)

theorem depth_le_outlines {node : Node} {nodes : List Node} (mem : node ∈ nodes) :
    node.outline.depth ≤ Json.depthOfItems (outlines nodes) := by
  induction nodes with
  | nil => cases mem
  | cons first nodes ih =>
    rw [outlines, Json.depthOfItems]
    rcases List.mem_cons.1 mem with rfl | mem
    · omega
    · have le := ih mem
      omega

theorem Program.depth_lt_node {p : Program} {node : Node} (mem : node ∈ p.body.body) :
    node.outline.depth < p.node.outline.depth := by
  obtain ⟨pos, ⟨start, body⟩⟩ := p
  have items : node.outline.depth ≤ Json.depthOfItems (outlines body) := depth_le_outlines mem
  have inBlock : (Json.list (outlines body)).depth < (blockOutline ⟨start, body⟩).depth := by
    rw [blockOutline]
    exact depth_lt_outline (List.mem_singleton.2 rfl)
  have inProgram : (blockOutline ⟨start, body⟩).depth <
      (Node.program pos ⟨start, body⟩).outline.depth := by
    rw [Node.outline]
    exact depth_lt_outline (List.mem_singleton.2 rfl)
  rw [Json.depth] at inBlock
  change node.outline.depth < (Node.program pos ⟨start, body⟩).outline.depth
  omega

def signed (n : Nat) : List TokenKind := List.replicate n .minus ++ [.number]

theorem exists_unary_signed {n : Nat} {u : List Token} (kinds : u.map Token.kind = signed n) :
    ∃ a, IsUnary (n + 2) u a ∧ n < a.outline.depth := by
  induction n generalizing u with
  | zero =>
    obtain ⟨t, rfl, number⟩ := List.map_eq_singleton_iff.1 kinds
    have literal : t.kind.literalType? = some .integer := by rw [number]; rfl
    refine ⟨_, .factor (.literal literal), ?_⟩
    rw [Node.outline]
    exact Nat.succ_pos _
  | succ n ih =>
    obtain ⟨sign, u, rfl, minus, rest⟩ := List.map_eq_cons_iff.1 kinds
    obtain ⟨a, unary, deep⟩ := ih rest
    have operator : sign.kind.sign? = some .minus := by rw [minus]; rfl
    have deeper := Node.depth_lt_unary sign.pos .minus a
    exact ⟨_, .signed operator unary, by omega⟩

def printSigned (n : Nat) : String := .ofList (spaced (.bang :: (signed n ++ [.dot])))

theorem exists_program_signed {n : Nat} {u : List Token}
    (kinds : u.map Token.kind = .bang :: (signed n ++ [.dot])) :
    ∃ p, IsProgram (n + 6) u p ∧ n < p.node.outline.depth := by
  obtain ⟨mark, v, rfl, bang, rest⟩ := List.map_eq_cons_iff.1 kinds
  obtain ⟨number, tail, rfl, signs, closing⟩ := List.map_eq_append_iff.1 rest
  obtain ⟨point, rfl, dot⟩ := List.map_eq_singleton_iff.1 closing
  obtain ⟨a, unary, deep⟩ := exists_unary_signed signs
  have ends : point.kind.multiplicative? = none ∧ point.kind.additive? = none := by
    rw [dot]
    exact ⟨rfl, rfl⟩
  have statement : IsStatement (n + 5) (mark :: number) point (some (.print mark.pos a)) :=
    .print bang (.last (.last unary ends.1) ends.2)
  have other {kind : TokenKind} (h : kind ≠ .bang) : mark.kind ≠ kind := by
    rw [bang]
    exact h.symm
  have declarations : AreDeclarations (n + 5) ([] ++ ([] ++ [])) mark ([] ++ [] ++ []) :=
    .mk (.absent (other nofun)) (.absent (other nofun)) (.none (other nofun))
  have block : IsBlock (n + 6) true ([] ++ ((mark :: number) ++ [])) point _ :=
    .mk declarations statement (.absent (by simp [dot]))
  rw [List.nil_append, List.append_nil] at block
  refine ⟨_, .mk block dot, ?_⟩
  refine (deep.trans (Node.depth_lt_print mark.pos a)).trans (Program.depth_lt_node ?_)
  simp

theorem parse_printSigned {n : Nat} (room : n + 6 ≤ Grammar.nestingLimit) :
    ∃ p, parse (printSigned n) = .ok p ∧ n < p.node.outline.depth := by
  have spelled : ∀ k ∈ TokenKind.bang :: (signed n ++ [.dot]), k.spelling ≠ [] := by
    intro k mem
    simp only [signed, List.mem_cons, List.mem_append, List.mem_replicate, List.not_mem_nil,
      or_false] at mem
    rcases mem with rfl | (⟨_, rfl⟩ | rfl) | rfl <;> nofun
  obtain ⟨e, kinds, last⟩ := scan_spaced spelled
  obtain ⟨p, phrase, deep⟩ := exists_program_signed kinds
  exact ⟨p, parseWithin_of_isProgram last (phrase.lift room), deep⟩

end PlZero
