import ChainScript.Load
import ChainScript.Proofs.Expr.Occurs

/-!
Allotted caches: each memo has one of its own, with a number from the range used up, and nothing
else is changed.
-/
namespace ChainScript

variable {κ : Type} {given more : Memos} {lo mid hi : Nat}

namespace Memos

/-- The numbers of the memos are from `lo` up to `hi`, and no two memos share one. -/
structure Numbered (given : Memos) (lo hi : Nat) : Prop where
  le : lo ≤ hi
  range : ∀ {mark params body}, given mark params body → lo ≤ mark ∧ mark < hi
  unique : ∀ {mark params params' body body'}, given mark params body →
    given mark params' body' → params = params' ∧ body = body'

def or (given more : Memos) : Memos :=
  fun mark params body => given mark params body ∨ more mark params body

theorem numbered_none (n : Nat) : Numbered (fun _ _ _ => False) n n :=
  ⟨Nat.le_refl n, False.elim, fun h => h.elim⟩

theorem numbered_of_imp (h : more.Numbered lo hi)
    (himp : ∀ mark params body, given mark params body → more mark params body) :
    given.Numbered lo hi :=
  ⟨h.le, fun hm => h.range (himp _ _ _ hm), fun hm hm' => h.unique (himp _ _ _ hm) (himp _ _ _ hm')⟩

theorem numbered_of_le (h : given.Numbered lo mid) (hle : mid ≤ hi) : given.Numbered lo hi :=
  ⟨Nat.le_trans h.le hle, fun hm => ⟨(h.range hm).1, Nat.lt_of_lt_of_le (h.range hm).2 hle⟩,
    h.unique⟩

theorem numbered_or (h : given.Numbered lo mid) (h' : more.Numbered mid hi) :
    (given.or more).Numbered lo hi := by
  refine ⟨Nat.le_trans h.le h'.le, ?_, ?_⟩
  · rintro mark params body (hm | hm)
    · exact ⟨(h.range hm).1, Nat.lt_of_lt_of_le (h.range hm).2 h'.le⟩
    · exact ⟨Nat.le_trans h.le (h'.range hm).1, (h'.range hm).2⟩
  · rintro mark params params' body body' (hm | hm) (hm' | hm')
    · exact h.unique hm hm'
    · exact absurd (h.range hm).2 (Nat.not_lt.mpr (h'.range hm').1)
    · exact absurd (h.range hm').2 (Nat.not_lt.mpr (h'.range hm).1)
    · exact h'.unique hm hm'

end Memos

namespace Expr

variable {e d : Code} {es : List Code}

/-- The memos that occur in any of the expressions. -/
def memosAll (es : List Code) : Memos :=
  fun mark params body => ∃ e ∈ es, e.memos mark params body

theorem numbered_nil (n : Nat) : (memosAll []).Numbered n n :=
  Memos.numbered_of_imp (Memos.numbered_none n) (by simp [memosAll])

theorem numbered_cons (h : e.memos.Numbered lo mid) (h' : (memosAll es).Numbered mid hi) :
    (memosAll (e :: es)).Numbered lo hi := by
  refine Memos.numbered_of_imp (Memos.numbered_or h h') ?_
  rintro mark params body ⟨d, hd, hm⟩
  rcases List.mem_cons.mp hd with rfl | hd
  · exact .inl hm
  · exact .inr ⟨d, hd, hm⟩

theorem numbered_singleton (h : e.memos.Numbered lo hi) : (memosAll [e]).Numbered lo hi :=
  numbered_cons h (numbered_nil hi)

/-- What is no memo itself has the memos of the expressions inside it. -/
theorem numbered_of_children (hd : ∀ mark params body, d ≠ memo mark params body)
    (h : (memosAll d.children).Numbered lo hi) : d.memos.Numbered lo hi :=
  Memos.numbered_of_imp h fun mark params body hm =>
    exists_child_of_occurs hm (Ne.symm (hd mark params body))

/-- A memo has its number in front of those inside its body. -/
theorem numbered_memo {params : List String} {body : Code}
    (h : body.memos.Numbered (lo + 1) hi) : (memo lo params body).memos.Numbered lo hi := by
  have hself : Memos.Numbered (fun m ps b => m = lo ∧ ps = params ∧ b = body) lo (lo + 1) := by
    refine ⟨by omega, ?_, ?_⟩
    · rintro m ps b ⟨rfl, -, -⟩
      omega
    · rintro m ps ps' b b' ⟨-, rfl, rfl⟩ ⟨-, rfl, rfl⟩
      exact ⟨rfl, rfl⟩
  refine Memos.numbered_of_imp (Memos.numbered_or hself h) ?_
  rintro m ps b hm
  cases hm with
  | self => exact .inl ⟨rfl, rfl, rfl⟩
  | child he hm =>
    obtain rfl := List.mem_singleton.mp he
    exact .inr hm

mutual
theorem numbered_allot (e : Expr κ) (next : Nat) :
    (allot e next).1.memos.Numbered next (allot e next).2 := by
  cases e with
  | number x => exact numbered_of_children (by simp [allot]) (numbered_nil next)
  | string s => exact numbered_of_children (by simp [allot]) (numbered_nil next)
  | empty => exact numbered_of_children (by simp [allot]) (numbered_nil next)
  | var x => exact numbered_of_children (by simp [allot]) (numbered_nil next)
  | array items =>
    exact numbered_of_children (by simp [allot]) (numbered_allotAll items next)
  | lambda name params body =>
    exact numbered_of_children (by simp [allot]) (numbered_singleton (numbered_allot body next))
  | apply func args =>
    exact numbered_of_children (by simp [allot])
      (numbered_cons (numbered_allot func next) (numbered_allotAll args _))
  | switch subject cases =>
    exact numbered_of_children (by simp [allot])
      (numbered_cons (numbered_allot subject next) (numbered_allotCases cases _))
  | chain segments =>
    exact numbered_of_children (by simp [allot]) (numbered_allotSegments segments next)
  | compound items =>
    exact numbered_of_children (by simp [allot]) (numbered_allotAll items next)
  | collector items =>
    exact numbered_of_children (by simp [allot]) (numbered_allotAll items next)
  | bind pattern value =>
    exact numbered_of_children (by simp [allot]) (numbered_singleton (numbered_allot value next))
  | member base name =>
    exact numbered_of_children (by simp [allot]) (numbered_singleton (numbered_allot base next))
  | within base body =>
    exact numbered_of_children (by simp [allot])
      (numbered_cons (numbered_allot base next) (numbered_singleton (numbered_allot body _)))
  | memo mark params body => exact numbered_memo (numbered_allot body (next + 1))
theorem numbered_allotAll (es : List (Expr κ)) (next : Nat) :
    (memosAll (allotAll es next).1).Numbered next (allotAll es next).2 := by
  match es with
  | [] => exact numbered_nil next
  | e :: rest => exact numbered_cons (numbered_allot e next) (numbered_allotAll rest _)
theorem numbered_allotCases (cases : List (Expr κ × Expr κ)) (next : Nat) :
    (memosAll ((allotCases cases next).1.flatMap fun (lhs, rhs) => [lhs, rhs])).Numbered next
      (allotCases cases next).2 := by
  match cases with
  | [] => exact numbered_nil next
  | (lhs, rhs) :: rest =>
    exact numbered_cons (numbered_allot lhs next)
      (numbered_cons (numbered_allot rhs _) (numbered_allotCases rest _))
theorem numbered_allotSegments (segments : List (Segment (Expr κ))) (next : Nat) :
    (memosAll ((allotSegments segments next).1.map (·.expr))).Numbered next
      (allotSegments segments next).2 := by
  match segments with
  | [] => exact numbered_nil next
  | ⟨e, link, slot⟩ :: rest =>
    exact numbered_cons (numbered_allot e next) (numbered_allotSegments rest _)
end

mutual
/-- The code without the marks on its memos. -/
def unmark : Expr κ → Source
  | number x => number x
  | string s => string s
  | empty => empty
  | var x => var x
  | array items => array (unmarkAll items)
  | lambda name params body => lambda name params (unmark body)
  | apply func args => apply (unmark func) (unmarkAll args)
  | switch subject cases => switch (unmark subject) (unmarkCases cases)
  | chain segments => chain (unmarkSegments segments)
  | compound items => compound (unmarkAll items)
  | collector items => collector (unmarkAll items)
  | bind pattern value => bind pattern (unmark value)
  | member base name => member (unmark base) name
  | within base body => within (unmark base) (unmark body)
  | memo _ params body => memo () params (unmark body)
def unmarkAll : List (Expr κ) → List Source
  | [] => []
  | e :: rest => unmark e :: unmarkAll rest
def unmarkCases : List (Expr κ × Expr κ) → List (Source × Source)
  | [] => []
  | (lhs, rhs) :: rest => (unmark lhs, unmark rhs) :: unmarkCases rest
def unmarkSegments : List (Segment (Expr κ)) → List (Segment Source)
  | [] => []
  | ⟨e, link, slot⟩ :: rest => ⟨unmark e, link, slot⟩ :: unmarkSegments rest
end

mutual
/-- Allotting caches changes nothing but the marks. -/
theorem unmark_allot (e : Source) (next : Nat) : (allot e next).1.unmark = e := by
  cases e with
  | number x => rfl
  | string s => rfl
  | empty => rfl
  | var x => rfl
  | array items => simp only [allot, unmark, unmark_allotAll items]
  | lambda name params body => simp only [allot, unmark, unmark_allot body]
  | apply func args => simp only [allot, unmark, unmark_allot func, unmark_allotAll args]
  | switch subject cases =>
    simp only [allot, unmark, unmark_allot subject, unmark_allotCases cases]
  | chain segments => simp only [allot, unmark, unmark_allotSegments segments]
  | compound items => simp only [allot, unmark, unmark_allotAll items]
  | collector items => simp only [allot, unmark, unmark_allotAll items]
  | bind pattern value => simp only [allot, unmark, unmark_allot value]
  | member base name => simp only [allot, unmark, unmark_allot base]
  | within base body => simp only [allot, unmark, unmark_allot base, unmark_allot body]
  | memo mark params body => simp only [allot, unmark, unmark_allot body]
theorem unmark_allotAll (es : List Source) (next : Nat) : unmarkAll (allotAll es next).1 = es := by
  match es with
  | [] => rfl
  | e :: rest => simp only [allotAll, unmarkAll, unmark_allot e, unmark_allotAll rest]
theorem unmark_allotCases (cases : List (Source × Source)) (next : Nat) :
    unmarkCases (allotCases cases next).1 = cases := by
  match cases with
  | [] => rfl
  | (lhs, rhs) :: rest =>
    simp only [allotCases, unmarkCases, unmark_allot lhs, unmark_allot rhs, unmark_allotCases rest]
theorem unmark_allotSegments (segments : List (Segment Source)) (next : Nat) :
    unmarkSegments (allotSegments segments next).1 = segments := by
  match segments with
  | [] => rfl
  | ⟨e, link, slot⟩ :: rest =>
    simp only [allotSegments, unmarkSegments, unmark_allot e, unmark_allotSegments rest]
end

end Expr

end ChainScript
