import LuaChunk.Proofs.Reread.Block

/-!
# Trees that can be written are read again

By induction over a tree that can be written: its words are read as a tree without complaints, if
the levels of nesting suffice, and it is the same tree if that is asked.
-/

set_option autoImplicit false

open LuaChunk.Parser

namespace LuaChunk

variable {c : Bounds} {around : List Body}

/-- What holds of an expression that can be written: it is read, it may be called if it is open, and
the body of a function is read wherever it stands. -/
structure Exp.Reads (c : Bounds) (σ : ScopeStack) (depth : Nat) (e : Exp) : Prop where
  reread : e.Reread c σ depth
  rooted : e.endsOpen = true → e.Rooted c σ depth
  function : ∀ body span, e = .function body span → body.Reread c σ depth

namespace Exp.Reads

variable {σ : ScopeStack} {depth : Nat} {e : Exp}

/-- What is neither called nor a function. -/
theorem plain (h : e.Reread c σ depth) (closed : e.endsOpen = false)
    (other : ∀ body span, e ≠ .function body span) : e.Reads c σ depth :=
  ⟨h, fun isOpen => absurd isOpen (by simp [closed]), fun body span same =>
    absurd same (other body span)⟩

/-- What may be called. -/
theorem ofRooted (h : e.Rooted c σ depth) (isOpen : e.endsOpen = true)
    (printable : e.Printable c.toDemand around) : e.Reads c σ depth := by
  refine ⟨h.reread isOpen printable, fun _ => h, ?_⟩
  rintro body span rfl
  cases isOpen

end Exp.Reads

/-- What holds of a block that can be written: it is read, and so is each expression that it
returns. -/
structure Block.Reads (c : Bounds) (σ : ScopeStack) (depth : Nat) (b : Block) : Prop where
  reread : b.Reread c σ depth
  returned : ∀ es ∈ b.returns, ∀ e ∈ es, e.Reads c σ depth

theorem Block.Printable.reads {b : Block} (h : b.Printable c.toDemand around) :
    ∀ (σ : ScopeStack) (depth : Nat), σ.Inside around → b.Reads c σ depth := by
  refine @Block.Printable.rec c.toDemand
    (fun around e _ => ∀ (σ : ScopeStack) depth, σ.Inside around → e.Reads c σ depth)
    (fun around s _ => ∀ (σ : ScopeStack) depth, σ.Inside around → ∀ p ∈ s.plain, p.Reread c σ depth)
    (fun around b _ => ∀ (σ : ScopeStack) depth, σ.Inside around → b.Reads c σ depth)
    ?nil ?bool ?vararg ?integer ?float ?string ?name ?unary ?binary ?table ?function ?call ?index
    ?paren ?breakLoop ?label ?goto ?doBlock ?whileLoop ?repeatLoop ?conditional ?numericFor
    ?genericFor ?assign ?declare ?localFunction ?callStat ?importCall ?importNames ?switch ?block
    around b h
  case nil => exact fun span σ depth _ => .plain (Exp.reread_nil span) rfl (by simp)
  case bool => exact fun value span σ depth _ => .plain (Exp.reread_bool value span) rfl (by simp)
  case vararg => exact fun span σ depth _ => .plain (Exp.reread_vararg span) rfl (by simp)
  case integer =>
    exact fun span exact σ depth _ => .plain (Exp.reread_integer span exact) rfl (by simp)
  case float =>
    intro around value span unsigned exact σ depth _
    by_cases finite : value.isFinite = true
    · exact .plain (Exp.reread_float span unsigned finite) (by simp [Exp.endsOpen, finite]) (by simp)
    · have infinite : value.isFinite = false := by simpa using finite
      have printable : (Exp.float value span).Printable c.toDemand around :=
        .float span unsigned exact
      exact .ofRooted (Exp.rooted_float span infinite exact) (by simp [Exp.endsOpen, infinite])
        printable
  case string => exact fun text span σ depth _ => .plain (Exp.reread_string text span) rfl (by simp)
  case name =>
    intro around name span own σ depth _
    have printable : (Exp.name name span).Printable c.toDemand around := .name span own
    exact .ofRooted (Exp.rooted_name _ span) rfl printable
  case unary =>
    intro around op operand span signs printable inner σ depth inside
    exact .ofRooted (Exp.rooted_unary span (inner σ depth inside).reread) rfl
      (.unary span signs printable)
  case binary =>
    intro around left right op span printable printable' first second σ depth inside
    have unsigned (asked : c.exact = true) : left.isNegative = false := by
      cases printable with
      | integer span exact => simpa [Exp.isNegative] using exact asked
      | _ => rfl
    exact .ofRooted (Exp.rooted_binary span unsigned (first σ depth inside).reread
      (second σ depth inside).reread) rfl (.binary op span printable printable')
  case table =>
    intro around keys values span same few _ printable keyed each σ depth inside
    exact .plain (Exp.reread_table span same few
      (fun key among => (keyed key among σ depth inside).reread)
      (fun value among => (each value among σ depth inside).reread) printable) rfl (by simp)
  case function =>
    intro around params block isVararg isMethod owner name span _ _ body σ depth inside
    have read : FunctionBody.Reread c σ depth ⟨params, isVararg, isMethod, block, owner, name⟩ :=
      functionBody_takes (body _ (depth + 1) (inside.push .function "function")).reread
    refine ⟨Exp.reread_function span read, by simp [Exp.endsOpen], ?_⟩
    rintro _ _ ⟨⟩
    exact read
  case call =>
    intro around callee method args span isOpen names printable printable' first rest σ depth inside
    exact .ofRooted (Exp.rooted_call span ((first σ depth inside).rooted isOpen)
      (fun arg among => (rest arg among σ depth inside).reread) printable') rfl
      (.call span isOpen names printable printable')
  case index =>
    intro around object key span isOpen printable printable' first second σ depth inside
    exact .ofRooted (Exp.rooted_index span ((first σ depth inside).rooted isOpen)
      (second σ depth inside).reread) rfl (.index span isOpen printable printable')
  case paren =>
    intro around inner span printable own σ depth inside
    exact .ofRooted (Exp.rooted_paren span (own σ depth inside).reread) rfl (.paren span printable)
  case breakLoop =>
    exact fun span loop σ depth inside => List.forall_mem_singleton.2
      (Stat.reread_break inside loop span)
  case label =>
    exact fun span _ σ depth _ => List.forall_mem_singleton.2 (Stat.reread_label _ span)
  case goto =>
    exact fun span _ σ depth _ => List.forall_mem_singleton.2 (Stat.reread_goto _ span)
  case doBlock =>
    exact fun span _ body σ depth inside => List.forall_mem_singleton.2
      (Stat.reread_do span (body _ (depth + 1) (inside.push .doBlock "do")).reread)
  case whileLoop =>
    exact fun span _ _ first second σ depth inside => List.forall_mem_singleton.2
      (Stat.reread_while span (first σ depth inside).reread
        (second _ (depth + 1) (inside.push .loop "while")).reread)
  case repeatLoop =>
    exact fun span _ _ first second σ depth inside => List.forall_mem_singleton.2
      (Stat.reread_repeat span (first σ depth inside).reread
        (second _ (depth + 1) (inside.push .loop "repeat")).reread)
  case conditional =>
    exact fun span some _ _ conditions bodies σ depth inside => List.forall_mem_singleton.2
      (Stat.reread_conditional span some (fun b among => (conditions b among σ depth inside).reread)
        fun b among => (bodies b among _ (depth + 1) (inside.push .branch "if")).reread)
  case numericFor =>
    exact fun span _ _ _ _ _ first second third fourth σ depth inside => List.forall_mem_singleton.2
      (Stat.reread_numericFor span (first σ depth inside).reread (second σ depth inside).reread
        (third σ depth inside).reread (fourth _ (depth + 1) (inside.push .loop "for")).reread)
  case genericFor =>
    exact fun span some _ iterated _ _ each body σ depth inside => List.forall_mem_singleton.2
      (Stat.reread_genericFor span some iterated (fun e among => (each e among σ depth inside).reread)
        (body _ (depth + 1) (inside.push .loop "for")).reread)
  case assign =>
    intro around targets values span some isTarget printable given _ first second σ depth inside
    refine List.forall_mem_singleton.2 (Stat.reread_assign span some given isTarget printable
      (fun e among => (first e among σ depth inside).rooted ?_)
      fun e among => (second e among σ depth inside).reread)
    cases isTarget e among <;> rfl
  case declare =>
    exact fun span some same _ plain single _ each σ depth inside => List.forall_mem_singleton.2
      (Stat.reread_declare span some same plain single
        fun e among => (each e among σ depth inside).reread)
  case localFunction =>
    exact fun span _ _ function σ depth inside => List.forall_mem_singleton.2
      (Stat.reread_localFunction span ((function σ depth inside).function _ _ rfl))
  case callStat =>
    exact fun printable own σ depth inside => List.forall_mem_singleton.2
      (Stat.reread_call _ ((own σ depth inside).rooted rfl) printable)
  case importCall =>
    exact fun printable own σ depth inside => List.forall_mem_singleton.2
      (Stat.reread_call _ ((own σ depth inside).rooted rfl) printable)
  case importNames => exact fun _ own σ depth inside => own σ depth inside
  case switch =>
    intro around subject cases span _ _ first second σ depth inside
    exact List.forall_mem_append.2 ⟨first σ depth inside, second σ depth inside⟩
  case block =>
    intro around stats returns span printable apart printable' each values σ depth inside
    refine ⟨?_, fun es same e among => values es same e among σ depth inside⟩
    exact Block.reread span inside (fun s among => each s among σ depth inside) printable apart
      (fun es same e among => (values es same e among σ depth inside).reread) printable'

/-- An expression that can be written is read, as it would be if a block returned it. -/
theorem Exp.Printable.reread {e : Exp} (h : e.Printable c.toDemand around) {σ : ScopeStack}
    (inside : σ.Inside around) (depth : Nat) : e.Reread c σ depth :=
  ((h.returned.reads σ depth inside).returned _ rfl e List.mem_cons_self).reread

end LuaChunk
