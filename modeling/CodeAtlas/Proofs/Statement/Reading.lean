import CodeAtlas.Statement.Basic
import CodeAtlas.Statement.Warning
import Mathlib

/-!
What all readings of a body have in common.

A property holds of a tree of statements when all statements in it have it (`Stmt.Every`), so a tree
lies between two offsets when the spans of all its statements do (`Stmt.InBounds`). That a reading
comes to an end by itself and what it then gives is said by a triple (`Reading.Ends`). A reading
with more fuel gives the same wherever the one with less does not get stuck (`Reading.Refines`).
Both together make readings with enough fuel agree (`Reading.Agree`).
-/

set_option mvcgen.warning false

namespace CodeAtlas

open Std.Do

structure Span.Between (lo hi : Nat) (span : Span) : Prop where
  lo_le : lo ≤ span.start
  start_le : span.start ≤ span.stop
  le_hi : span.stop ≤ hi

/-! ### The statements of a tree -/

mutual

/-- All statements inside a statement, at any depth. -/
def Stmt.inner : Stmt → List Stmt
  | .branch _ _ body orelse => Stmt.deep body ++ Stmt.deep orelse
  | .loop _ _ body orelse => Stmt.deep body ++ Stmt.deep orelse
  | .choice _ _ arms => Arm.deep arms
  | .guarded _ body handlers orelse none =>
      Stmt.deep body ++ Arm.deep handlers ++ Stmt.deep orelse
  | .guarded _ body handlers orelse (some final) =>
      Stmt.deep body ++ Arm.deep handlers ++ Stmt.deep orelse ++ Stmt.deep final
  | .block _ _ body => Stmt.deep body
  | _ => []

/-- Some statements and all statements inside them. -/
def Stmt.deep : List Stmt → List Stmt
  | [] => []
  | s :: ss => s :: (Stmt.inner s ++ Stmt.deep ss)

def Arm.deep : List Arm → List Stmt
  | [] => []
  | .mk _ _ body :: arms => Stmt.deep body ++ Arm.deep arms

end

-- Tagged here, the equations are derived once, before the proofs below ask for them side by side.
attribute [simp] Stmt.inner Stmt.deep Arm.deep

namespace Stmt

theorem deep_append (ss ts : List Stmt) : deep (ss ++ ts) = deep ss ++ deep ts := by
  induction ss with
  | nil => simp
  | cons s ss ih => simp [ih]

def Every (p : Stmt → Prop) (ss : List Stmt) : Prop :=
  ∀ s ∈ deep ss, p s

/-- The span of a statement lies between two offsets. -/
def Inside (lo hi : Nat) (s : Stmt) : Prop :=
  s.span.Between lo hi

/-- All statements of some trees lie between two offsets. -/
abbrev InBounds (lo hi : Nat) (ss : List Stmt) : Prop :=
  Every (Inside lo hi) ss

end Stmt

namespace Arm

theorem deep_append (arms arms' : List Arm) : deep (arms ++ arms') = deep arms ++ deep arms' := by
  induction arms with
  | nil => simp
  | cons arm arms ih =>
    cases arm
    simp [ih]

def Every (p : Stmt → Prop) (arms : List Arm) : Prop :=
  ∀ s ∈ deep arms, p s

abbrev InBounds (lo hi : Nat) (arms : List Arm) : Prop :=
  Every (Stmt.Inside lo hi) arms

end Arm

namespace Stmt

variable {p : Stmt → Prop} {span : Span} {body orelse : List Stmt} {arms : List Arm}
  {ss : List Stmt} {s : Stmt} {final : Option (List Stmt)} {lo hi : Nat}

@[grind =] theorem every_nil : Every p [] ↔ True := by
  simp [Every]

@[grind =] theorem every_append {ts : List Stmt} :
    Every p (ss ++ ts) ↔ Every p ss ∧ Every p ts := by
  simp [Every, deep_append, or_imp, forall_and]

@[grind =] theorem every_cons : Every p (s :: ss) ↔ Every p [s] ∧ Every p ss := by
  rw [← every_append, List.singleton_append]

@[grind =] theorem every_branch {condition : String} :
    Every p [.branch span condition body orelse] ↔
    p (.branch span condition body orelse) ∧ Every p body ∧ Every p orelse := by
  simp [Every, or_imp, forall_and]

@[grind =] theorem every_loop {head : LoopHead} : Every p [.loop span head body orelse] ↔
    p (.loop span head body orelse) ∧ Every p body ∧ Every p orelse := by
  simp [Every, or_imp, forall_and]

@[grind =] theorem every_choice {head : ChoiceHead} : Every p [.choice span head arms] ↔
    p (.choice span head arms) ∧ Arm.Every p arms := by
  simp [Every, Arm.Every]

@[grind =] theorem every_guarded : Every p [.guarded span body arms orelse final] ↔
    p (.guarded span body arms orelse final) ∧ Every p body ∧ Arm.Every p arms ∧ Every p orelse ∧
      ∀ ss ∈ final, Every p ss := by
  cases final <;> simp [Every, Arm.Every, or_imp, forall_and]

@[grind =] theorem every_block {header : String} : Every p [.block span header body] ↔
    p (.block span header body) ∧ Every p body := by
  simp [Every]

@[grind =] theorem every_toStmt {kind : SimpleKind} :
    Every p [kind.toStmt span] ↔ p (kind.toStmt span) := by
  cases kind <;> simp [Every, SimpleKind.toStmt]

@[grind =] theorem every_simple : Every p [.simple span] ↔ p (.simple span) :=
  @every_toStmt p span .plain

theorem every_getD (hf : ∀ ss ∈ final, Every p ss)
    (hb : Every p body) : Every p (final.getD body) := by
  cases final with
  | none => exact hb
  | some ss => exact hf ss rfl

attribute [grind =] Stmt.span

@[grind =] theorem inside_iff :
    s.Inside lo hi ↔ lo ≤ s.span.start ∧ s.span.start ≤ s.span.stop ∧ s.span.stop ≤ hi :=
  ⟨fun h => ⟨h.lo_le, h.start_le, h.le_hi⟩, fun h => ⟨h.1, h.2.1, h.2.2⟩⟩

theorem InBounds.mono {hi' : Nat} (h : InBounds lo hi ss) (above : hi ≤ hi') : InBounds lo hi' ss :=
  fun s mem => ⟨(h s mem).lo_le, (h s mem).start_le, Nat.le_trans (h s mem).le_hi above⟩

end Stmt

namespace Arm

variable {p : Stmt → Prop} {arms arms' : List Arm}

@[grind =] theorem every_nil : Every p [] ↔ True := by
  simp [Every]

@[grind =] theorem every_append : Every p (arms ++ arms') ↔ Every p arms ∧ Every p arms' := by
  simp [Every, deep_append, or_imp, forall_and]

@[grind =] theorem every_cons {label : String} {start : Nat} {body : List Stmt} :
    Every p (.mk label start body :: arms) ↔ Stmt.Every p body ∧ Every p arms := by
  simp [Every, Stmt.Every, or_imp, forall_and]

end Arm

@[grind =] theorem SimpleKind.span_toStmt {kind : SimpleKind} {span : Span} :
    (kind.toStmt span).span = span := by
  cases kind <;> rfl

/-! ### Readings that end -/

namespace Reading

variable {α β : Type} {m m' : Reading α} {p : α → Prop} {pre : Prop}

abbrev Ends (m : Reading α) (pre : Prop) (p : α → Prop) : Prop :=
  ⦃fun r => ⌜pre ∧ r.stuck = false⌝⦄ m ⦃⇓ a r => ⌜p a ∧ r.stuck = false⌝⦄

/-- Nothing is asked where the premise fails. -/
theorem ends_of_not (h : ¬ pre) : Ends m pre p :=
  fun _ holds => absurd holds.1 h

/-- Wherever the first reading does not get stuck, the second one gives the same. -/
def Refines (m m' : Reading α) : Prop :=
  ∀ r, (m.run r).2.stuck = false → r.stuck = false ∧ m'.run r = m.run r

theorem refines_pure (a : α) : Refines (pure a) (pure a) :=
  fun _ calm => ⟨calm, rfl⟩

theorem refines_warn (offset : Nat) (w : FlowWarning) : Refines (warn offset w) (warn offset w) :=
  fun _ calm => ⟨calm, rfl⟩

theorem refines_stick : Refines stick stick :=
  fun _ calm => nomatch calm

/-- Where the fuel is out, any reading gives at least as much. -/
theorem refines_giveUp (a : α) (m : Reading α) : Refines (giveUp a) m :=
  fun _ calm => nomatch calm

theorem Refines.bind {f f' : α → Reading β} (first : Refines m m')
    (next : ∀ a, Refines (f a) (f' a)) :
    Refines (m >>= f) (m' >>= f') := by
  intro r calm
  obtain ⟨between, rest⟩ := next (m.run r).1 (m.run r).2 calm
  obtain ⟨before, same⟩ := first r between
  refine ⟨before, ?_⟩
  show (f' (m'.run r).1).run (m'.run r).2 = _
  rw [same]
  exact rest

theorem refines_ite {b : Prop} [Decidable b] {l l' : Reading α} (yes : Refines m m')
    (no : Refines l l') :
    Refines (if b then m else l) (if b then m' else l') := by
  by_cases h : b
  · simpa only [if_pos h] using yes
  · simpa only [if_neg h] using no

/-- Two readings that give the same and leave the same remarks. What they give has the property `p`,
and neither gets stuck. -/
def Agree (m m' : Reading α) (p : α → Prop) : Prop :=
  ∀ warnings, m.run ⟨warnings, false⟩ = m'.run ⟨warnings, false⟩ ∧ p (m.run ⟨warnings, false⟩).1 ∧
    (m.run ⟨warnings, false⟩).2.stuck = false

/-- **A reading that ends agrees with any that refines it.** -/
theorem Ends.agree (ends : Ends m pre p) (holds : pre) (refines : Refines m m') : Agree m m' p := by
  intro warnings
  obtain ⟨gives, calm⟩ := ends ⟨warnings, false⟩ ⟨holds, rfl⟩
  exact ⟨(refines _ calm).2.symm, gives, calm⟩

/-- What two readings agree on may be told in part. -/
theorem Agree.mono {p' : α → Prop} (h : Agree m m' p) (weaker : ∀ a, p a → p' a) : Agree m m' p' :=
  fun r => ⟨(h r).1, weaker _ (h r).2.1, (h r).2.2⟩

theorem agree_pure {a : α} (h : p a) : Agree (pure a) (pure a) p :=
  fun _ => ⟨rfl, h, rfl⟩

theorem agree_ite {b : Prop} [Decidable b] {l l' : Reading α} (yes : b → Agree m m' p)
    (no : ¬ b → Agree l l' p) : Agree (if b then m else l) (if b then m' else l') p := by
  by_cases h : b
  · simpa only [if_pos h] using yes h
  · simpa only [if_neg h] using no h

end Reading

end CodeAtlas
