import Fixity.Proofs.Expr.Nodes
import Fixity.Proofs.Parse.Feed
import Fixity.Proofs.Token.Scan

/-!
# What the parser makes

The parser makes trees only from the tokens that it reads, and its operators are those of the table.
So a property of trees that these ways of making a node keep (`Kept`) holds of everything on the stack
after each token, and of the tree at the end (`run_kept`).
-/

namespace Fixity.Parser

open Fixity.Expr

/-- The ways in which the parser makes a node from tokens of a kind keep the property. -/
structure Kept (T : Table) (Q : Token → Prop) (P : Expr → Prop) : Prop where
  literal : ∀ {t : Token} {e : Expr}, Q t → newLiteral (some t) = .ok e → P e
  ident : ∀ {t : Token} {e : Expr}, Q t → newIdent (some t) = .ok e → P e
  unary : ∀ {o : Token} {u : UnaryOp} {x e : Expr}, Q o → T.unary? o.type = some u → P x →
    newUnary (some o) (some x) = .ok e → P e
  binary : ∀ {o : Token} {op : BinaryOp} {l r e : Expr}, Q o → T.binary? o.type = some op →
    P l → P r → newBinary op.builder (some o) (some l) (some r) = .ok e → P e
  call : ∀ {p : Token} {f e : Expr} (args : List Expr), Q p → P f → (∀ a ∈ args, P a) →
    newCall (some p) (some f) (args.map some) = .ok e → P e

variable {T : Table} {Q : Token → Prop} {P : Expr → Prop}

/-- The trees of a frame have the property, and its operator is of the kind and in the table. -/
def Frame.Keeps (T : Table) (Q : Token → Prop) (P : Expr → Prop) : Frame → Prop
  | .climb _ | .group => True
  | .right op token left => Q token ∧ T.binary? token.type = some op ∧ P left
  | .operand token => Q token ∧ ∃ u, T.unary? token.type = some u
  | .argument paren callee read => Q paren ∧ P callee ∧ ∀ e ∈ read, P e

def State.Keeps (T : Table) (Q : Token → Prop) (P : Expr → Prop) : State → Prop
  | .expect stack => ∀ f ∈ stack, f.Keeps T Q P
  | .opened paren callee stack => Q paren ∧ P callee ∧ ∀ f ∈ stack, f.Keeps T Q P
  | .complete e stack => P e ∧ ∀ f ∈ stack, f.Keeps T Q P
  | .finished e => P e

theorem keeps_expression {stack : List Frame} (h : ∀ f ∈ stack, f.Keeps T Q P) :
    ∀ f ∈ expression stack, f.Keeps T Q P := List.forall_mem_cons.mpr ⟨trivial, h⟩

theorem keeps_begin (hP : Kept T Q P) {t : Token} (ht : t.type ≠ .eof → Q t)
    {stack : List Frame} {s : State} (hstack : ∀ f ∈ stack, f.Keeps T Q P)
    (h : begin T stack t = .ok s) : s.Keeps T Q P := by
  have hq : Q t := by
    refine ht fun heof => ?_
    rw [begin, if_pos heof] at h
    cases h
  rcases begin_eq_ok h with ⟨u, hu, rfl⟩ | ⟨hnew, rfl⟩ | ⟨hnew, rfl⟩ | ⟨-, rfl⟩
  · exact List.forall_mem_cons.mpr
      ⟨trivial, List.forall_mem_cons.mpr ⟨⟨hq, u, hu⟩, hstack⟩⟩
  · exact ⟨hP.literal hq hnew, hstack⟩
  · exact ⟨hP.ident hq hnew, hstack⟩
  · exact keeps_expression (List.forall_mem_cons.mpr ⟨trivial, hstack⟩)

theorem type_ne_eof_of_settle_climb {t : Token} {e : Expr} {op : BinaryOp} {least : Int}
    {stack : List Frame} {s : State} (hop : T.binary? t.type = some op) (hle : least ≤ op.precedence)
    (h : settle T t e (.climb least :: stack) = .ok s) : t.type ≠ .eof := by
  intro heof
  rw [settle, hop] at h
  simp only at h
  rw [if_neg (by omega), if_pos heof] at h
  cases h

theorem keeps_settle (hP : Kept T Q P) {t : Token} (ht : t.type ≠ .eof → Q t)
    {stack : List Frame} : ∀ {e : Expr} {s : State}, P e → (∀ f ∈ stack, f.Keeps T Q P) →
      settle T t e stack = .ok s → s.Keeps T Q P := by
  induction stack with
  | nil =>
    intro e s he _ h
    obtain ⟨-, rfl⟩ := settle_nil_eq_ok h
    exact he
  | cons frame stack ih =>
    intro e s he hstack h
    obtain ⟨hframe, hrest⟩ := List.forall_mem_cons.mp hstack
    cases frame with
    | climb least =>
      rcases settle_climb_eq_ok h with ⟨op, hop, hle, rfl⟩ | ⟨-, h⟩
      · have hq := ht (type_ne_eof_of_settle_climb hop hle h)
        exact List.forall_mem_cons.mpr
          ⟨trivial, List.forall_mem_cons.mpr ⟨⟨hq, hop, he⟩, hstack⟩⟩
      · exact ih he hrest h
    | right op o l =>
      obtain ⟨e', hnew, -, h⟩ := settle_right_eq_ok h
      obtain ⟨hq, hop, hl⟩ := hframe
      exact ih (hP.binary hq hop hl he hnew) hrest h
    | operand o =>
      obtain ⟨hq, u, hu⟩ := hframe
      obtain ⟨e', hnew, h⟩ := settle_operand_eq_ok h
      exact ih (hP.unary hq hu he hnew) hrest h
    | group =>
      obtain ⟨-, rfl⟩ := settle_group_eq_ok h
      exact ⟨he, hrest⟩
    | argument paren f read =>
      obtain ⟨hq, hf, hread⟩ := hframe
      have hargs : ∀ a ∈ e :: read, P a := List.forall_mem_cons.mpr ⟨he, hread⟩
      rcases settle_argument_eq_ok h with ⟨-, rfl⟩ | ⟨-, call, rfl, hnew⟩
      · exact keeps_expression (List.forall_mem_cons.mpr ⟨⟨hq, hf, hargs⟩, hrest⟩)
      · exact ⟨hP.call _ hq hf (fun a ha => hargs a (List.mem_reverse.mp ha)) hnew, hrest⟩

/-- **One token** keeps the property. -/
theorem keeps_step (hP : Kept T Q P) {t : Token} (ht : t.type ≠ .eof → Q t) {s s' : State}
    (hs : s.Keeps T Q P) (h : step T t s = .ok s') : s'.Keeps T Q P := by
  cases s with
  | expect stack => exact keeps_begin hP ht hs h
  | opened paren f stack =>
    obtain ⟨hq, hf, hstack⟩ := hs
    rcases step_opened_eq_ok h with ⟨-, call, rfl, hnew⟩ | h
    · exact ⟨hP.call [] hq hf (by simp) hnew, hstack⟩
    · have hframe : (Frame.argument paren f []).Keeps T Q P := ⟨hq, hf, by simp⟩
      exact keeps_begin hP ht (keeps_expression (List.forall_mem_cons.mpr ⟨hframe, hstack⟩)) h
  | complete e stack =>
    rcases step_complete_eq_ok h with ⟨hparen, rfl⟩ | h
    · exact ⟨ht (by simp [hparen]), hs⟩
    · exact keeps_settle hP ht hs.1 hs.2 h
  | finished e =>
    rw [step] at h
    obtain rfl := Except.ok.inj h
    exact hs

/-- **The tree that is parsed has every property that the parser keeps.** -/
theorem run_kept (hP : Kept T Q P) {last : Token} (hlast : last.type = .eof) {ts : List Token}
    (hts : ∀ t ∈ ts, Q t) {e : Expr} (h : (run T last start ts).result = .ok e) : P e := by
  have hstart : start.Keeps T Q P := keeps_expression (by simp)
  obtain ⟨s, hs, hfin⟩ := run_induct (P := fun s _ => s.Keeps T Q P)
    (fun s s' _ t ht hs hstep => keeps_step hP (fun _ => hts t ht) hs hstep) start [] e hstart h
  exact keeps_step hP (fun hne => absurd hlast hne) hs hfin

/-! ### The nodes of a parsed tree -/

/-- What holds of each node that the parser makes holds of all nodes of a parsed tree. -/
theorem kept_nodes {R : Expr → Prop} (literal : ∀ {t : Token}, Q t → R (.literal t))
    (ident : ∀ {t : Token}, Q t → t.type = .identifier → R (.ident t))
    (unary : ∀ {o : Token} {u : UnaryOp} {x : Expr} {d : Nat}, Q o →
      T.unary? o.type = some u → o.type.isUnary = true → R (.unary o x d))
    (binary : ∀ {o : Token} {op : BinaryOp} {c : Category} {l r : Expr} {d : Nat}, Q o →
      T.binary? o.type = some op → o.type.category? = some c → R (.binary c o l r d))
    (call : ∀ {p : Token} {f : Expr} {args : List Expr} {d : Nat}, Q p →
      p.type = .leftParen → R (.call p f args d)) : Kept T Q fun e => ∀ n ∈ e.nodes, R n where
  literal := by
    intro t e ht h
    obtain ⟨-, -, rfl⟩ := newLiteral_some_eq_ok.mp h
    exact forall_nodes.mpr ⟨literal ht, by simp [children]⟩
  ident := by
    intro t e hq h
    obtain ⟨ht, -, rfl⟩ := newIdent_some_eq_ok.mp h
    exact forall_nodes.mpr ⟨ident hq ht, by simp [children]⟩
  unary := by
    intro o u x e hq hu hx h
    obtain ⟨hunary, -, rfl⟩ := newUnary_some_eq_ok.mp h
    exact forall_nodes.mpr ⟨unary hq hu hunary, List.forall_mem_singleton.mpr hx⟩
  binary := by
    intro o op l r e hq hop hl hr h
    obtain ⟨hc, -, rfl⟩ := newBinary_some_eq_ok.mp h
    refine forall_nodes.mpr ⟨binary hq hop hc, ?_⟩
    exact List.forall_mem_cons.mpr ⟨hl, List.forall_mem_singleton.mpr hr⟩
  call := by
    intro p f e args hq hf hargs h
    obtain ⟨hp, -, rfl⟩ := newCall_some_eq_ok.mp h
    exact forall_nodes.mpr ⟨call hq hp, List.forall_mem_cons.mpr ⟨hf, hargs⟩⟩

theorem kept_hasEntry : Kept T Q fun e => ∀ n ∈ e.nodes, n.HasEntry T :=
  kept_nodes (fun _ => trivial) (fun _ _ => trivial)
    (fun _ hu _ => Option.isSome_iff_exists.mpr ⟨_, hu⟩)
    (fun _ hop _ => Option.isSome_iff_exists.mpr ⟨_, hop⟩) fun _ _ => trivial

theorem kept_tokens : Kept T Q fun e => ∀ n ∈ e.nodes, Q n.token :=
  kept_nodes (fun h => h) (fun h _ => h) (fun h _ _ => h) (fun h _ _ => h) fun h _ => h

theorem kept_built : Kept T Q Built where
  literal := fun _ h => .literal h
  ident := fun _ h => .ident h
  unary := fun _ _ hx h => .unary hx h
  binary := fun _ _ hl hr h => .binary hl hr h
  call := fun _ _ hf hargs h => .call hf hargs h

theorem kept_validStrings : Kept T Token.Scanned ValidStrings := by
  refine kept_nodes (fun ht _ => ht.valid) ?_ ?_ ?_ ?_
  · intro t _ ht hstring
    exact absurd (ht.symm.trans hstring) (by simp)
  · intro o u x d _ _ hunary hstring
    have htype : o.type = .string := hstring
    rw [htype] at hunary
    cases hunary
  · intro o op c l r d _ _ hc hstring
    have htype : o.type = .string := hstring
    rw [htype] at hc
    cases hc
  · intro p f args d _ hp hstring
    exact absurd (hp.symm.trans hstring) (by simp)

end Fixity.Parser
