import Mathlib.Data.List.Forall2
import ChainScript.Proofs.Tree.Parse

/-!
Derivation trees taken apart and put together, one production at a time. These are the trees that
the parser yields.
-/
namespace ChainScript.Tree

open Grammar

variable {n : Nonterminal} {x : Grammar.Symbol} {xs : List Grammar.Symbol} {t : Tree}
  {ts : List Tree}

/-- The tree derives what is at its leaves from the symbol `x`, and declares names after `let`. -/
structure Derives (x : Grammar.Symbol) (t : Tree) : Prop where
  root : t.symbol = x
  derivation : t.IsDerivation
  names : t.DeclaresNames

theorem derives_of_parse {s : TokenStream} (h : parse n s = .ok t) : Derives (.nonterm n) t := by
  obtain ⟨hroot, hderivation, hnames, -⟩ := spells_of_parse h
  exact ⟨hroot, hderivation, hnames⟩

theorem derives_all (hsymbols : ts.map symbol = xs)
    (hts : ∀ t ∈ ts, t.IsDerivation ∧ t.DeclaresNames) : List.Forall₂ Derives xs ts := by
  subst hsymbols
  induction ts with
  | nil => exact .nil
  | cons t ts ih =>
    obtain ⟨hderivation, hnames⟩ := hts t (by simp)
    exact .cons ⟨rfl, hderivation, hnames⟩ (ih fun u hu => hts u (by simp [hu]))

/-- The children of a node derive the symbols of one production. -/
theorem Derives.children (h : Derives (.nonterm n) t) :
    ∃ xs ∈ productions n, ∃ ts, t = node n ts ∧ List.Forall₂ Derives xs ts := by
  obtain ⟨hroot, hderivation, hnames⟩ := h
  obtain ⟨ts, rfl⟩ := symbol_eq_nonterm hroot
  cases hderivation with
  | node rule parts =>
    cases hnames with
    | node _ names =>
      exact ⟨_, rule, ts, rfl, derives_all rfl fun t ht => ⟨parts t ht, names t ht⟩⟩

/-- An empty expansion is the only child of its node. -/
theorem eq_epsilon_of_derives (h : List.Forall₂ Derives [.epsilon] ts) : ts = [epsilon] := by
  obtain _ | ⟨hepsilon, ⟨⟩⟩ := h
  have hroot := hepsilon.root
  rename_i t
  cases t with
  | epsilon => rfl
  | _ => simp [symbol] at hroot

theorem Derives.exists_identifier (h : Derives .id t) : ∃ p x, t = leaf ⟨p, .identifier x⟩ := by
  obtain ⟨⟨p, value⟩, rfl, htoken⟩ := symbol_eq_term h.root
  cases value with
  | identifier x => exact ⟨p, x, rfl⟩
  | _ => simp [Terminal.ofToken] at htoken

theorem Derives.exists_number (h : Derives .number t) : ∃ p x, t = leaf ⟨p, .number x⟩ := by
  obtain ⟨⟨p, value⟩, rfl, htoken⟩ := symbol_eq_term h.root
  cases value with
  | number x => exact ⟨p, x, rfl⟩
  | _ => simp [Terminal.ofToken] at htoken

theorem Derives.exists_string (h : Derives .string t) : ∃ p x, t = leaf ⟨p, .string x⟩ := by
  obtain ⟨⟨p, value⟩, rfl, htoken⟩ := symbol_eq_term h.root
  cases value with
  | string x => exact ⟨p, x, rfl⟩
  | _ => simp [Terminal.ofToken] at htoken

theorem Derives.exists_keyword {k : Keyword} (h : Derives (.word k) t) :
    ∃ p, t = leaf ⟨p, .keyword k⟩ := by
  obtain ⟨⟨p, value⟩, rfl, htoken⟩ := symbol_eq_term h.root
  cases value with
  | keyword k' =>
    obtain rfl : k' = k := by simpa [Terminal.ofToken] using htoken
    exact ⟨p, rfl⟩
  | _ => simp [Terminal.ofToken] at htoken

end ChainScript.Tree
