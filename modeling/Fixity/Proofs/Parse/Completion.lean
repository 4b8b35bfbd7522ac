import Fixity.Proofs.Parse.Feed

/-!
# What has been begun can be finished

After any tokens that the parser has accepted, the expression can be finished: a name where an operand
must follow, then a closing parenthesis for each group and each call that is open
(`exists_run_eq_ok`).  The only obstacle is a tree that becomes too deep.  Closing the frames around an
expression of depth `d` makes a tree of depth `closedDepth d stack`, and each level of that tree has a
token of its own, so this depth never exceeds the number of tokens (`within_feed`).
-/

namespace Fixity.Parser

open Fixity.Expr

variable {T : Table}

/-! ### Closing frames -/

/-- The depth of the tree that is made when an expression of depth `d` is handed to the frames and
they are closed one after the other. -/
def closedDepth (d : Nat) : List Frame → Nat
  | [] => d
  | .climb _ :: stack => closedDepth d stack
  | .right _ _ l :: stack => closedDepth (max l.depth d + 1) stack
  | .operand _ :: stack => closedDepth (d + 1) stack
  | .group :: stack => closedDepth d stack
  | .argument _ f read :: stack => closedDepth (max (deepest (f :: read.reverse)) d + 1) stack

theorem closedDepth_mono {d d' : Nat} (h : d ≤ d') (stack : List Frame) :
    closedDepth d stack ≤ closedDepth d' stack := by
  induction stack generalizing d d' with
  | nil => exact h
  | cons frame stack ih =>
    cases frame with
    | climb => exact ih h
    | group => exact ih h
    | _ => exact ih (by omega)

/-- One more level below adds at most one level above. -/
theorem closedDepth_succ_le (d : Nat) (stack : List Frame) :
    closedDepth (d + 1) stack ≤ closedDepth d stack + 1 := by
  induction stack generalizing d with
  | nil => exact Nat.le_refl _
  | cons frame stack ih =>
    cases frame with
    | climb => exact ih d
    | operand => exact ih (d + 1)
    | group => exact ih d
    | right op token l =>
      refine Nat.le_trans (closedDepth_mono ?_ stack) (ih (max l.depth d + 1))
      omega
    | argument paren f read =>
      refine Nat.le_trans (closedDepth_mono ?_ stack)
        (ih (max (deepest (f :: read.reverse)) d + 1))
      omega

theorem le_closedDepth (d : Nat) (stack : List Frame) : d ≤ closedDepth d stack := by
  induction stack generalizing d with
  | nil => exact Nat.le_refl _
  | cons frame stack ih =>
    cases frame with
    | climb => exact ih d
    | group => exact ih d
    | operand => exact Nat.le_trans (by omega) (ih (d + 1))
    | right op token l => exact Nat.le_trans (by omega) (ih (max l.depth d + 1))
    | argument paren f read =>
      exact Nat.le_trans (by omega) (ih (max (deepest (f :: read.reverse)) d + 1))

theorem lt_of_closedDepth_le {d n : Nat} {stack : List Frame} (h : closedDepth (d + 1) stack ≤ n) :
    d < n :=
  Nat.lt_of_succ_le (Nat.le_trans (le_closedDepth _ stack) h)

theorem deepest_append_singleton (es : List Expr) (e : Expr) :
    deepest (es ++ [e]) = max (deepest es) e.depth := by
  rw [deepest, List.foldl_append]
  rfl

theorem deepest_reverse_cons (f e : Expr) (read : List Expr) :
    deepest (f :: (e :: read).reverse) = max (deepest (f :: read.reverse)) e.depth := by
  rw [List.reverse_cons, ← List.cons_append, deepest_append_singleton]

/-! ### What the frames keep -/

/-- The token of the frame belongs to the node that the frame makes. -/
def Frame.Fits (T : Table) : Frame → Prop
  | .climb _ | .group => True
  | .right op token _ => T.binary? token.type = some op
  | .operand token => ∃ u, T.unary? token.type = some u
  | .argument paren _ _ => paren.type = .leftParen

/-- What the tokens read so far, `n` of them, amount to can be finished within as many levels, or one
more where an operand must follow. -/
def State.Within (T : Table) (n : Nat) : State → Prop
  | .expect stack => (∀ f ∈ stack, f.Fits T) ∧ closedDepth 1 stack ≤ n + 1
  | .opened paren callee stack =>
    paren.type = .leftParen ∧ (∀ f ∈ stack, f.Fits T) ∧ closedDepth (callee.depth + 1) stack ≤ n
  | .complete e stack => (∀ f ∈ stack, f.Fits T) ∧ closedDepth e.depth stack ≤ n
  | .finished _ => False

theorem within_begin {n : Nat} {t : Token} {stack : List Frame} {s : State}
    (hstack : ∀ f ∈ stack, f.Fits T) (hdepth : closedDepth 1 stack ≤ n + 1)
    (h : begin T stack t = .ok s) : s.Within T (n + 1) := by
  rcases begin_eq_ok h with ⟨u, hu, rfl⟩ | ⟨-, rfl⟩ | ⟨-, rfl⟩ | ⟨-, rfl⟩
  · refine ⟨List.forall_mem_cons.mpr ⟨trivial, List.forall_mem_cons.mpr ⟨⟨u, hu⟩, hstack⟩⟩, ?_⟩
    exact Nat.le_trans (closedDepth_succ_le 1 stack) (by omega)
  · exact ⟨hstack, hdepth⟩
  · exact ⟨hstack, hdepth⟩
  · refine ⟨List.forall_mem_cons.mpr ⟨trivial, List.forall_mem_cons.mpr ⟨trivial, hstack⟩⟩, ?_⟩
    show closedDepth 1 stack ≤ n + 1 + 1
    omega

/-- Handing an operand on does not change the depth of the tree in the end. -/
theorem within_settle {n : Nat} {t : Token} (ht : t.type ≠ .eof) {stack : List Frame} :
    ∀ {e : Expr} {s : State}, (∀ f ∈ stack, f.Fits T) → closedDepth e.depth stack ≤ n →
      settle T t e stack = .ok s → s.Within T (n + 1) := by
  induction stack with
  | nil =>
    intro e s _ _ h
    exact absurd (settle_nil_eq_ok h).1 ht
  | cons frame stack ih =>
    intro e s hstack hdepth h
    obtain ⟨hframe, hrest⟩ := List.forall_mem_cons.mp hstack
    cases frame with
    | climb least =>
      rcases settle_climb_eq_ok h with ⟨op, hop, -, rfl⟩ | ⟨-, h⟩
      · refine ⟨List.forall_mem_cons.mpr ⟨trivial, List.forall_mem_cons.mpr ⟨hop, hstack⟩⟩, ?_⟩
        -- the operator and its right operand are two more levels at most
        have hle : closedDepth (max e.depth 1 + 1) stack ≤ closedDepth (e.depth + 1 + 1) stack :=
          closedDepth_mono (by omega) stack
        have hone := closedDepth_succ_le e.depth stack
        have htwo := closedDepth_succ_le (e.depth + 1) stack
        have hdepth : closedDepth e.depth stack ≤ n := hdepth
        show closedDepth (max e.depth 1 + 1) stack ≤ n + 1 + 1
        omega
      · exact ih hrest hdepth h
    | right op o l =>
      obtain ⟨e', hnew, -, h⟩ := settle_right_eq_ok h
      obtain ⟨-, -, rfl⟩ := newBinary_some_eq_ok.mp hnew
      exact ih hrest hdepth h
    | operand o =>
      obtain ⟨e', hnew, h⟩ := settle_operand_eq_ok h
      obtain ⟨-, -, rfl⟩ := newUnary_some_eq_ok.mp hnew
      exact ih hrest hdepth h
    | group =>
      obtain ⟨-, rfl⟩ := settle_group_eq_ok h
      exact ⟨hrest, Nat.le_succ_of_le hdepth⟩
    | argument paren f read =>
      have hdepth : closedDepth (max (deepest (f :: read.reverse)) e.depth + 1) stack ≤ n := hdepth
      rcases settle_argument_eq_ok h with ⟨-, rfl⟩ | ⟨-, call, rfl, hnew⟩
      · refine ⟨List.forall_mem_cons.mpr ⟨trivial, List.forall_mem_cons.mpr ⟨hframe, hrest⟩⟩, ?_⟩
        have hle : closedDepth (max (max (deepest (f :: read.reverse)) e.depth) 1 + 1) stack ≤
            closedDepth (max (deepest (f :: read.reverse)) e.depth + 1 + 1) stack :=
          closedDepth_mono (by omega) stack
        have hone := closedDepth_succ_le (max (deepest (f :: read.reverse)) e.depth + 1) stack
        show closedDepth (max (deepest (f :: (e :: read).reverse)) 1 + 1) stack ≤ n + 1 + 1
        rw [deepest_reverse_cons]
        omega
      · obtain ⟨-, -, rfl⟩ := newCall_some_eq_ok.mp hnew
        refine ⟨hrest, ?_⟩
        show closedDepth (deepest (f :: (e :: read).reverse) + 1) stack ≤ n + 1
        rw [deepest_reverse_cons]
        exact Nat.le_succ_of_le hdepth

/-- **One token** is at most one more level. -/
theorem within_step {n : Nat} {t : Token} (ht : t.type ≠ .eof) {s s' : State}
    (hs : s.Within T n) (h : step T t s = .ok s') : s'.Within T (n + 1) := by
  cases s with
  | expect stack => exact within_begin hs.1 hs.2 h
  | opened paren f stack =>
    obtain ⟨hparen, hstack, hdepth⟩ := hs
    rcases step_opened_eq_ok h with ⟨-, call, rfl, hnew⟩ | h
    · obtain ⟨-, -, rfl⟩ := newCall_nil_eq_ok.mp hnew
      exact ⟨hstack, Nat.le_succ_of_le hdepth⟩
    · refine within_begin ?_ ?_ h
      · exact List.forall_mem_cons.mpr ⟨trivial, List.forall_mem_cons.mpr ⟨hparen, hstack⟩⟩
      · have hle : closedDepth (max f.depth 1 + 1) stack ≤ closedDepth (f.depth + 1 + 1) stack :=
          closedDepth_mono (by omega) stack
        have hone := closedDepth_succ_le (f.depth + 1) stack
        show closedDepth (max (deepest [f]) 1 + 1) stack ≤ n + 1
        rw [deepest_singleton]
        omega
  | complete e stack =>
    rcases step_complete_eq_ok h with ⟨htype, rfl⟩ | h
    · exact ⟨htype, hs.1, Nat.le_trans (closedDepth_succ_le e.depth stack) (Nat.succ_le_succ hs.2)⟩
    · exact within_settle ht hs.1 hs.2 h
  | finished e => exact hs.elim

/-- **All tokens that are accepted** are at most as many levels. -/
theorem within_feed {us : List Token} (hus : ∀ u ∈ us, u.type ≠ .eof) :
    ∀ {n : Nat} {s s' : State}, s.Within T n → feed T s us = .ok s' →
      s'.Within T (n + us.length) := by
  induction us with
  | nil =>
    intro n s s' hs h
    obtain rfl := Except.ok.inj h
    exact hs
  | cons u us ih =>
    intro n s s' hs h
    obtain ⟨hu, hus⟩ := List.forall_mem_cons.mp hus
    rw [feed_cons] at h
    obtain ⟨s₁, hstep, h⟩ := bind_eq_ok.mp h
    have hend := ih hus (within_step hu hs hstep) h
    rwa [List.length_cons, Nat.add_comm us.length 1, ← Nat.add_assoc]

theorem within_start : start.Within T 0 :=
  ⟨List.forall_mem_cons.mpr ⟨trivial, by simp⟩, Nat.le_refl _⟩

/-! ### Finishing -/

def closer : Token := ⟨.rightParen, ")", .none, ⟨1, 1⟩⟩

def filler : Token := ⟨.identifier, "a", .none, ⟨1, 1⟩⟩

/-- The token neither calls an expression nor takes it as an operand. -/
def Closes (T : Table) (t : Token) : Prop := t.type ≠ .leftParen ∧ T.binary? t.type = none

theorem closes_closer (hT : T.Coherent) : Closes T closer := ⟨by decide, hT.binary?_eq_none rfl⟩

theorem closes_eof (hT : T.Coherent) {last : Token} (hlast : last.type = .eof) : Closes T last :=
  ⟨by simp [hlast], hlast ▸ hT.binary?_eq_none rfl⟩

theorem Closes.step_complete {t : Token} (h : Closes T t) (e : Expr) (stack : List Frame) :
    step T t (.complete e stack) = settle T t e stack := by
  rw [step, if_neg h.1]

theorem Closes.checkNonAssoc {t : Token} (h : Closes T t) (op : BinaryOp) :
    checkNonAssoc T op t = .ok () := by
  refine checkNonAssoc_eq_ok.mpr fun _ other hother => ?_
  rw [h.2] at hother
  cases hother

/-- What closes before any token is read need not be closed. -/
theorem run_closers_congr {last : Token} (hlast : Closes T last) (hcloser : Closes T closer)
    {e e' : Expr} {stack stack' : List Frame}
    (h : ∀ t, Closes T t → settle T t e stack = settle T t e' stack') (n : Nat) :
    run T last (.complete e stack) (List.replicate n closer) =
      run T last (.complete e' stack') (List.replicate n closer) := by
  have hstep : ∀ t, Closes T t → step T t (.complete e stack) = step T t (.complete e' stack') :=
    fun t ht => by rw [ht.step_complete, ht.step_complete, h t ht]
  cases n with
  | zero => rw [List.replicate_zero, run, run, hstep last hlast]
  | succ n => rw [List.replicate_succ, run, run, hstep closer hcloser]

/-- **A complete operand is finished by closing what is open around it**, unless that makes a tree
that is too deep. -/
theorem exists_run_complete (hT : T.Coherent) {last : Token} (hlast : last.type = .eof)
    {stack : List Frame} : ∀ {e : Expr}, (∀ f ∈ stack, f.Fits T) →
      closedDepth e.depth stack ≤ maxDepth →
      ∃ n e', run T last (.complete e stack) (List.replicate n closer) = ⟨.ok e', []⟩ := by
  have heof := closes_eof hT hlast
  have hcloser := closes_closer hT
  induction stack with
  | nil =>
    intro e _ _
    have hstep : step T last (.complete e []) = .ok (.finished e) := by
      rw [heof.step_complete, settle, if_pos hlast]
    refine ⟨0, e, ?_⟩
    rw [List.replicate_zero, run, hstep]
  | cons frame stack ih =>
    intro e hstack hdepth
    obtain ⟨hframe, hrest⟩ := List.forall_mem_cons.mp hstack
    cases frame with
    | climb least =>
      obtain ⟨n, e', hrun⟩ := ih hrest hdepth
      refine ⟨n, e', ?_⟩
      rw [← hrun]
      refine run_closers_congr heof hcloser (fun t ht => ?_) n
      exact settle_climb fun op hop => by simp [ht.2] at hop
    | right op o l =>
      have hlt : max l.depth e.depth < maxDepth := lt_of_closedDepth_le hdepth
      have hnew : newBinary op.builder (some o) (some l) (some e) =
          .ok (.binary op.builder o l e (max l.depth e.depth + 1)) :=
        newBinary_some_eq_ok.mpr ⟨hT.category?_of_binary? hframe, hlt, rfl⟩
      obtain ⟨n, e', hrun⟩ := ih (e := .binary op.builder o l e (max l.depth e.depth + 1))
        hrest hdepth
      refine ⟨n, e', ?_⟩
      rw [← hrun]
      exact run_closers_congr heof hcloser (fun t ht => settle_right hnew (ht.checkNonAssoc op)) n
    | operand o =>
      obtain ⟨u, hu⟩ := hframe
      have hlt : e.depth < maxDepth := lt_of_closedDepth_le hdepth
      have hnew : newUnary (some o) (some e) = .ok (.unary o e (e.depth + 1)) :=
        newUnary_some_eq_ok.mpr ⟨hT.isUnary_of_unary? hu, hlt, rfl⟩
      obtain ⟨n, e', hrun⟩ := ih (e := .unary o e (e.depth + 1)) hrest hdepth
      refine ⟨n, e', ?_⟩
      rw [← hrun]
      exact run_closers_congr heof hcloser (fun t _ => settle_operand hnew) n
    | group =>
      obtain ⟨n, e', hrun⟩ := ih hrest hdepth
      have hstep : step T closer (.complete e (.group :: stack)) = .ok (.complete e stack) := by
        rw [hcloser.step_complete, settle, if_pos (show closer.type = .rightParen from rfl)]
      refine ⟨n + 1, e', ?_⟩
      rw [List.replicate_succ, run, hstep]
      exact hrun
    | argument paren f read =>
      have hlt : deepest (f :: (e :: read).reverse) < maxDepth := by
        rw [deepest_reverse_cons]
        exact lt_of_closedDepth_le hdepth
      have hnew : newCall (some paren) (some f) ((e :: read).reverse.map some) =
          .ok (.call paren f (e :: read).reverse (deepest (f :: (e :: read).reverse) + 1)) :=
        newCall_some_eq_ok.mpr ⟨hframe, hlt, rfl⟩
      have hdepth' : closedDepth (deepest (f :: (e :: read).reverse) + 1) stack ≤ maxDepth := by
        rw [deepest_reverse_cons]
        exact hdepth
      obtain ⟨n, e', hrun⟩ := ih
        (e := .call paren f (e :: read).reverse (deepest (f :: (e :: read).reverse) + 1))
        hrest hdepth'
      have hstep : step T closer (.complete e (.argument paren f read :: stack)) = .ok (.complete
          (.call paren f (e :: read).reverse (deepest (f :: (e :: read).reverse) + 1)) stack) := by
        rw [hcloser.step_complete, settle]
        simp only [closer, hnew]
        rfl
      refine ⟨n + 1, e', ?_⟩
      rw [List.replicate_succ, run, hstep]
      exact hrun

/-- **Whatever has been read can be finished**, if it is fewer tokens than the levels of a tree. -/
theorem exists_run_eq_ok (hT : T.Coherent) {last : Token} (hlast : last.type = .eof) {n : Nat}
    (hn : n < maxDepth) {s : State} (hs : s.Within T n) :
    ∃ us e, (∀ u ∈ us, u.type ≠ .eof) ∧ run T last s us = ⟨.ok e, []⟩ := by
  have hclosers : ∀ m, ∀ u ∈ List.replicate m closer, u.type ≠ .eof := by
    intro m u hu
    rw [List.eq_of_mem_replicate hu]
    decide
  cases s with
  | expect stack =>
    have hstep : step T filler (.expect stack) = .ok (.complete (.ident filler) stack) := by
      have hnone : T.unary? filler.type = none := hT.unary?_eq_none rfl
      rw [step, begin, if_neg (by decide), hnone]
      simp only [filler]
      rfl
    obtain ⟨m, e, hrun⟩ := exists_run_complete hT hlast (e := .ident filler) hs.1
      (Nat.le_trans hs.2 hn)
    refine ⟨filler :: List.replicate m closer, e,
      List.forall_mem_cons.mpr ⟨by decide, hclosers m⟩, ?_⟩
    rw [run, hstep]
    exact hrun
  | opened paren f stack =>
    obtain ⟨hparen, hstack, hdepth⟩ := hs
    have hlt : f.depth < maxDepth :=
      lt_of_closedDepth_le (Nat.le_trans hdepth (Nat.le_of_lt hn))
    have hnew : newCall (some paren) (some f) [] = .ok (.call paren f [] (f.depth + 1)) :=
      newCall_nil_eq_ok.mpr ⟨hparen, hlt, rfl⟩
    have hstep : step T closer (.opened paren f stack) =
        .ok (.complete (.call paren f [] (f.depth + 1)) stack) := by
      rw [step, if_pos (show closer.type = .rightParen from rfl), hnew]
      rfl
    obtain ⟨m, e, hrun⟩ := exists_run_complete hT hlast (e := .call paren f [] (f.depth + 1))
      hstack (Nat.le_trans hdepth (Nat.le_of_lt hn))
    refine ⟨closer :: List.replicate m closer, e,
      List.forall_mem_cons.mpr ⟨by decide, hclosers m⟩, ?_⟩
    rw [run, hstep]
    exact hrun
  | complete e stack =>
    obtain ⟨m, e', hrun⟩ := exists_run_complete hT hlast hs.1 (Nat.le_trans hs.2 (Nat.le_of_lt hn))
    exact ⟨_, e', hclosers m, hrun⟩
  | finished e => exact hs.elim

end Fixity.Parser
