import Mathlib.Data.List.Basic
import ProcedureIndex.Proofs.Text.Braces

/-!
Marks that are opened in code and not closed again. Two marks, one that opens and one that
closes, give every place of a text a depth; a stack of the places that are open says the
same place by place. What is on top of the stack is the last mark that opens and behind
which the marks pair up; a text that closes nothing it did not open leaves the stack below
as it was.
-/

namespace ProcedureIndex
namespace Text

variable {o c : Char}

/-- The depth behind some characters, if it starts at `d` and never drops below zero. -/
def depthFrom (o c : Char) : Nat → List Char → Option Nat
  | d, [] => some d
  | d, m :: code =>
      if m = o then depthFrom o c (d + 1) code
      else if m = c then
        if d = 0 then none else depthFrom o c (d - 1) code
      else depthFrom o c d code

/-- The depth at the end of a text, counted among its code, if it never drops below zero. -/
def depth? (o c : Char) (cs : Text) : Option Nat :=
  depthFrom o c 0 ((codeChars cs).map Prod.snd)

theorem depthFrom_append (d : Nat) (a b : List Char) :
    depthFrom o c d (a ++ b) = (depthFrom o c d a).bind fun e => depthFrom o c e b := by
  fun_induction depthFrom o c d a with
  | case1 d => rfl
  | case2 d code ih => simpa [depthFrom] using ih
  | case3 code hne => simp [depthFrom, hne]
  | case4 d code hd hne ih => simpa [depthFrom, hne, hd] using ih
  | case5 d m code hopen hclose ih => simpa [depthFrom, hopen, hclose] using ih

/-- Deeper inside, the same marks lead to a place that is as much deeper. -/
theorem depthFrom_add {d e : Nat} {a : List Char} (h : depthFrom o c d a = some e) (k : Nat) :
    depthFrom o c (d + k) a = some (e + k) := by
  fun_induction depthFrom o c d a with
  | case1 d =>
      cases h
      rfl
  | case2 d code ih =>
      rw [depthFrom, if_pos rfl, Nat.add_right_comm]
      exact ih h
  | case3 code hne => cases h
  | case4 d code hd hne ih =>
      have hdeep : d + k - 1 = d - 1 + k := by omega
      rw [depthFrom, if_neg hne, if_pos rfl, if_neg (by omega), hdeep]
      exact ih h
  | case5 d m code hopen hclose ih =>
      rw [depthFrom, if_neg hopen, if_neg hclose]
      exact ih h

def stackMark (o c : Char) (stack : List Nat) (p : Nat × Char) : List Nat :=
  if p.2 = o then p.1 :: stack else if p.2 = c then stack.tail else stack

theorem stackBrace_eq : stackBrace = stackMark '{' '}' := by
  funext stack p
  obtain ⟨n, m⟩ := p
  simp only [stackBrace, stackMark]
  split
  · next h => simp_all
  · next h => simp_all
  · next hopen hclose => simp_all

/-- Marks that never drop below the depth at which they start leave the stack below as it was. -/
theorem exists_foldl_stackMark {w : List (Nat × Char)} {d e : Nat}
    (h : depthFrom o c d (w.map Prod.snd) = some e) (top : List Nat) (htop : top.length = d)
    (base : List Nat) :
    ∃ opened, w.foldl (stackMark o c) (top ++ base) = opened ++ base ∧ opened.length = e ∧
      ∀ i ∈ opened, i ∈ top ∨ i ∈ w.map Prod.fst := by
  induction w generalizing d top with
  | nil =>
      cases h
      exact ⟨top, rfl, htop, fun i hi => .inl hi⟩
  | cons p w ih =>
      obtain ⟨n, m⟩ := p
      have further : ∀ top', depthFrom o c top'.length (w.map Prod.snd) = some e →
          stackMark o c (top ++ base) (n, m) = top' ++ base → top' ⊆ n :: top →
          ∃ opened, ((n, m) :: w).foldl (stackMark o c) (top ++ base) = opened ++ base ∧
            opened.length = e ∧ ∀ i ∈ opened, i ∈ top ∨ i ∈ ((n, m) :: w).map Prod.fst := by
        intro top' hdepth hstep hsubset
        obtain ⟨opened, hrun, he, hmem⟩ := ih hdepth top' rfl
        refine ⟨opened, by rw [List.foldl_cons, hstep, hrun], he, ?_⟩
        intro i hi
        rw [List.map_cons, List.mem_cons]
        rcases hmem i hi with hi | hi
        · exact (List.mem_cons.1 (hsubset hi)).elim (fun h => .inr (.inl h)) .inl
        · exact .inr (.inr hi)
      rw [List.map_cons, depthFrom] at h
      split at h
      · next hopen =>
          refine further (n :: top) ?_ (if_pos hopen) (List.Subset.refl _)
          rwa [List.length_cons, htop]
      · next hopen =>
          have hother : ∀ stack : List Nat, stackMark o c stack (n, m) =
              if m = c then stack.tail else stack := fun _ => if_neg hopen
          split at h
          · next hclose =>
              split at h
              · cases h
              · next hd =>
                  obtain ⟨j, rest, rfl⟩ := List.exists_cons_of_ne_nil (l := top) (by
                    rintro rfl
                    exact hd htop.symm)
                  refine further rest ?_ ?_ ?_
                  · rwa [← htop, List.length_cons, Nat.add_sub_cancel] at h
                  · rw [hother, if_pos hclose]
                    rfl
                  · exact fun i hi => List.mem_cons_of_mem n (List.mem_cons_of_mem j hi)
          · next hclose =>
              refine further top (by rwa [htop]) (by rw [hother, if_neg hclose]) ?_
              exact fun i hi => List.mem_cons_of_mem n hi

/-- What is on top of the stack was opened there, the marks behind it pair up, and the rest of the
stack is what it was in front of it. -/
theorem exists_split_of_foldl_stackMark {w : List (Nat × Char)} {i : Nat} {rest : List Nat}
    (h : w.foldl (stackMark o c) [] = i :: rest) :
    ∃ u v, w = u ++ (i, o) :: v ∧ depthFrom o c 0 (v.map Prod.snd) = some 0 ∧
      u.foldl (stackMark o c) [] = rest := by
  induction hn : w.length using Nat.strongRecOn generalizing w i rest with
  | ind n ih =>
      rcases List.eq_nil_or_concat' w with rfl | ⟨u, ⟨k, m⟩, rfl⟩
      · cases h
      · have hshort : u.length < n := by
          rw [← hn, List.length_append]
          exact Nat.lt_succ_self _
        rw [List.foldl_append, List.foldl_cons, List.foldl_nil, stackMark] at h
        split at h
        · next hopen =>
            cases h
            cases hopen
            exact ⟨u, [], rfl, rfl, rfl⟩
        · next hopen =>
            split at h
            · next hclose =>
                -- The mark closes what was on top, so the place below it is on top again.
                obtain ⟨j, hj⟩ : ∃ j, u.foldl (stackMark o c) [] = j :: i :: rest := by
                  cases hs : u.foldl (stackMark o c) [] with
                  | nil => rw [hs] at h; cases h
                  | cons j tail => rw [hs] at h; exact ⟨j, by rw [← h]; rfl⟩
                obtain ⟨u', v', rfl, hdepth', hbelow⟩ := ih _ hshort hj rfl
                have hshort' : u'.length < n := by
                  rw [List.length_append] at hshort
                  omega
                obtain ⟨u'', v'', rfl, hdepth'', hrest⟩ := ih _ hshort' hbelow rfl
                refine ⟨u'', v'' ++ (j, o) :: (v' ++ [(k, m)]), by simp, ?_, hrest⟩
                have hwithin : depthFrom o c 1 (v'.map Prod.snd) = some 1 :=
                  depthFrom_add hdepth' 1
                cases hclose
                simp [depthFrom_append, hdepth'', depthFrom, hwithin, hopen]
            · next hclose =>
                obtain ⟨u', v', rfl, hdepth, hrest⟩ := ih _ hshort h rfl
                refine ⟨u', v' ++ [(k, m)], by simp, ?_, hrest⟩
                simp [depthFrom_append, hdepth, depthFrom, hopen, hclose]

/-- Where a text starts has no part in which of its characters are code. -/
theorem map_snd_codeCharsFrom_congr (q : Quoting) (offset offset' : Nat) (cs : Text) :
    (codeCharsFrom q offset cs).map Prod.snd = (codeCharsFrom q offset' cs).map Prod.snd := by
  induction cs generalizing q offset offset' with
  | nil => rfl
  | cons d cs ih =>
      simp only [codeCharsFrom]
      split
      · rw [List.map_cons, List.map_cons, ih]
      · exact ih _ _ _

theorem exists_split_of_codeCharsFrom {q : Quoting} {offset i : Nat} {m : Char} {cs : Text}
    {u v : List (Nat × Char)} (h : codeCharsFrom q offset cs = u ++ (i, m) :: v) :
    ∃ pre post, cs = pre ++ m :: post ∧ i = offset + width pre ∧ q.after pre = .code ∧
      v = codeCharsFrom .code (i + m.utf8Size) post := by
  induction cs generalizing q offset u with
  | nil => cases u <;> cases h
  | cons d cs ih =>
      have further : ∀ {u'}, codeCharsFrom (q.next d) (offset + d.utf8Size) cs = u' ++ (i, m) :: v →
          ∃ pre post, d :: cs = pre ++ m :: post ∧ i = offset + width pre ∧ q.after pre = .code ∧
            v = codeCharsFrom .code (i + m.utf8Size) post := by
        intro u' hrest
        obtain ⟨pre, post, rfl, hi, hcode, hv⟩ := ih hrest
        exact ⟨d :: pre, post, rfl, by rw [hi, width_cons, Nat.add_assoc], hcode, hv⟩
      simp only [codeCharsFrom] at h
      split at h
      · next hd =>
          cases u with
          | nil =>
              cases h
              cases q with
              | code =>
                  have hnext : Quoting.code.next m = .code := by
                    have hquote : Quoting.isQuote m = false := by simpa [Quoting.isCode] using hd
                    simp [Quoting.next, hquote]
                  exact ⟨[], cs, rfl, rfl, rfl, by rw [hnext]⟩
              | within quote | hidden quote => cases hd
          | cons p u => exact further (List.cons.inj h).2
      · exact further h

/-- The places that a text opens in code and does not close again, innermost first. -/
def openMarks (o c : Char) (cs : Text) : List Nat :=
  (codeChars cs).foldl (stackMark o c) []

theorem openBraces_eq (cs : Text) : openBraces cs = openMarks '{' '}' cs := by
  rw [openBraces, stackBrace_eq, openMarks]

/-- Behind `pre` the text opens a mark in code that is not closed again, and `d` more marks behind
it stay open. -/
structure LeftOpen (o c : Char) (cs pre post : Text) (d : Nat) : Prop where
  split : cs = pre ++ o :: post
  code : Quoting.code.after pre = .code
  depth : depth? o c post = some d

namespace LeftOpen

variable {cs pre post : Text} {d : Nat}

theorem exists_openMarks_eq (h : LeftOpen o c cs pre post d) (ho : Quoting.isQuote o = false) :
    ∃ opened, openMarks o c cs = opened ++ width pre :: openMarks o c pre ∧ opened.length = d ∧
      ∀ i ∈ opened, width pre + o.utf8Size ≤ i := by
  have hcode : codeChars cs = codeChars pre ++
      (width pre, o) :: codeCharsFrom .code (width pre + o.utf8Size) post := by
    rw [h.split, codeChars, codeCharsFrom_append, h.code, Nat.zero_add]
    simp [codeCharsFrom, Quoting.isCode, Quoting.next, ho, codeChars]
  have hdepth : depthFrom o c 0
      ((codeCharsFrom .code (width pre + o.utf8Size) post).map Prod.snd) = some d := by
    rw [map_snd_codeCharsFrom_congr .code _ 0]
    exact h.depth
  obtain ⟨opened, hrun, hlength, hmem⟩ :=
    exists_foldl_stackMark hdepth [] rfl (width pre :: openMarks o c pre)
  refine ⟨opened, ?_, hlength, ?_⟩
  · rw [openMarks, hcode, List.foldl_append, List.foldl_cons, ← openMarks, stackMark, if_pos rfl]
    exact hrun
  · intro i hi
    rcases hmem i hi with hi | hi
    · cases hi
    · obtain ⟨⟨j, m⟩, hm, rfl⟩ := List.mem_map.1 hi
      exact (bounds_of_mem_codeCharsFrom hm).1

end LeftOpen

/-- The innermost open place is the one behind which the marks pair up. -/
theorem head?_openMarks_eq_some_iff {cs : Text} {i : Nat} (ho : Quoting.isQuote o = false) :
    (openMarks o c cs).head? = some i ↔ ∃ pre post, LeftOpen o c cs pre post 0 ∧ i = width pre := by
  constructor
  · intro h
    obtain ⟨rest, hrest⟩ := List.head?_eq_some_iff.1 h
    obtain ⟨u, v, hcode, hdepth, -⟩ := exists_split_of_foldl_stackMark hrest
    obtain ⟨pre, post, hsplit, hi, hafter, rfl⟩ := exists_split_of_codeCharsFrom hcode
    rw [map_snd_codeCharsFrom_congr .code _ 0] at hdepth
    exact ⟨pre, post, ⟨hsplit, hafter, hdepth⟩, by rw [hi, Nat.zero_add]⟩
  · rintro ⟨pre, post, h, rfl⟩
    obtain ⟨opened, hrun, hlength, -⟩ := h.exists_openMarks_eq ho
    rw [hrun, List.length_eq_zero_iff.1 hlength]
    rfl

end Text
end ProcedureIndex
