import Mathlib.Data.List.Induction
import Mathlib.Data.List.Perm.Basic
import Mathlib.Tactic.Lemma

/-!
# Mailboxes

A mailbox takes letters in and hands them out again in the order in which they came. Its first
letter may be lost, and it may be cleared, and the letters in it are then lost. Each letter is in
one place, and without a loss the letters that were taken out and those that are in it are the
letters that were posted, in order.
-/

namespace Core

inductive MailEvent (α : Type*) where
  | post (a : α)
  | take
  | lose
  | clear

/-- No letter is lost. -/
def MailEvent.Keeps {α : Type*} : MailEvent α → Prop
  | .post _ => True
  | .take   => True
  | .lose   => False
  | .clear  => False

structure Mailbox (α : Type*) where
  taken : List α
  waiting : List α
  lost : List α

namespace Mailbox

variable {α : Type*}

def empty : Mailbox α := ⟨[], [], []⟩

def after (m : Mailbox α) : MailEvent α → Mailbox α
  | .post a => { m with waiting := m.waiting ++ [a] }
  | .take   => { m with taken := m.taken ++ m.waiting.take 1, waiting := m.waiting.drop 1 }
  | .lose   => { m with waiting := m.waiting.drop 1, lost := m.lost ++ m.waiting.take 1 }
  | .clear  => { m with waiting := [], lost := m.lost ++ m.waiting }

/-- A mailbox to which `es` has happened -/
def of (es : List (MailEvent α)) : Mailbox α := es.foldl after empty

/-- The letters that are posted, in order -/
def posted (es : List (MailEvent α)) : List α :=
  es.filterMap fun
    | .post a => some a
    | .take   => none
    | .lose   => none
    | .clear  => none

@[simp] lemma of_nil : of ([] : List (MailEvent α)) = empty := rfl

lemma of_concat (es : List (MailEvent α)) (e : MailEvent α) : of (es ++ [e]) = (of es).after e := by
  rw [of, List.foldl_concat, of]

@[simp] lemma posted_nil : posted ([] : List (MailEvent α)) = [] := rfl

lemma posted_append (es es' : List (MailEvent α)) : posted (es ++ es') = posted es ++ posted es' :=
  List.filterMap_append

/-- Without a loss, what was taken and what waits is what was there before and then what was
posted. -/
lemma taken_append_waiting (es : List (MailEvent α)) {es' : List (MailEvent α)}
    (h : ∀ e ∈ es', e.Keeps) :
    (of (es ++ es')).taken ++ (of (es ++ es')).waiting =
      (of es).taken ++ (of es).waiting ++ posted es' ∧
    (of (es ++ es')).lost = (of es).lost := by
  induction es' using List.reverseRecOn with
  | nil => simp
  | append_singleton es' e ih =>
    obtain ⟨horder, hlost⟩ := ih fun e he => h e (List.mem_append_left _ he)
    have hkeeps : e.Keeps := h e (by simp)
    rw [← List.append_assoc, of_concat, posted_append]
    cases e with
    | post a =>
      refine ⟨?_, hlost⟩
      rw [after, ← List.append_assoc, horder, List.append_assoc _ (posted es')]
      rfl
    | take =>
      refine ⟨?_, hlost⟩
      rw [after, List.append_assoc, List.take_append_drop, horder]
      simp [posted]
    | lose => exact hkeeps.elim
    | clear => exact hkeeps.elim

/-- The letters come out in the order in which they were posted. -/
lemma sublist_posted (es : List (MailEvent α)) :
    ((of es).taken ++ (of es).waiting).Sublist (posted es) := by
  induction es using List.reverseRecOn with
  | nil => exact List.Sublist.refl []
  | append_singleton es e ih =>
    rw [of_concat, posted_append]
    cases e with
    | post a =>
      rw [after, ← List.append_assoc]
      exact ih.append_right [a]
    | take =>
      rw [after, List.append_assoc, List.take_append_drop]
      exact ih.trans (List.sublist_append_left _ _)
    | lose =>
      rw [after]
      have hdrop := (List.drop_sublist 1 (of es).waiting).append_left (of es).taken
      exact (hdrop.trans ih).trans (List.sublist_append_left _ _)
    | clear =>
      rw [after, List.append_nil]
      exact ((List.sublist_append_left _ _).trans ih).trans (List.sublist_append_left _ _)

/-- Each letter is in one place. -/
lemma perm_posted (es : List (MailEvent α)) :
    (posted es).Perm ((of es).taken ++ (of es).waiting ++ (of es).lost) := by
  induction es using List.reverseRecOn with
  | nil => exact List.Perm.refl []
  | append_singleton es e ih =>
    rw [of_concat, posted_append]
    cases e with
    | post a =>
      rw [after, ← List.append_assoc, List.append_assoc _ [a]]
      refine (ih.append_right [a]).trans ?_
      rw [List.append_assoc]
      exact List.perm_append_comm.append_left _
    | take =>
      rw [after, List.append_assoc _ (List.take 1 _), List.take_append_drop]
      simpa [posted] using ih
    | lose =>
      have hposted : posted es ++ posted [MailEvent.lose] = posted es := List.append_nil _
      rw [hposted, after]
      refine ih.trans ?_
      -- the first letter goes from the front of what waits to the end of what is lost
      have hsplit : (of es).waiting.Perm ((of es).waiting.drop 1 ++ (of es).waiting.take 1) := by
        conv_lhs => rw [← List.take_append_drop 1 (of es).waiting]
        exact List.perm_append_comm
      refine ((hsplit.append_left _).append_right _).trans ?_
      simp only [List.append_assoc]
      exact (List.perm_append_comm.append_left _).append_left _
    | clear =>
      have hposted : posted es ++ posted [MailEvent.clear] = posted es := List.append_nil _
      rw [hposted, after, List.append_nil]
      refine ih.trans ?_
      rw [List.append_assoc]
      exact List.perm_append_comm.append_left _

end Mailbox

end Core
