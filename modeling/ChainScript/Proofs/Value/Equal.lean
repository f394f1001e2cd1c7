import ChainScript.Memo.Key
import ChainScript.Proofs.Number
import ChainScript.Proofs.Value.Obeys

/-!
Equality of values. It is an equivalence relation away from NaN, and the keys of caches tell apart
exactly what is not equal.
-/
namespace ChainScript

namespace Value

variable {u v w : Value} {k : Nat}

mutual
/-- The outcome of an evaluation, without NaN and without unevaluated items, however deep. -/
def isDefinite : Value → Bool
  | number x => !x.isNaN
  | array items => areDefinite items
  | v => v.isEvaluated
def areDefinite : List Value → Bool
  | [] => true
  | v :: rest => v.isDefinite && areDefinite rest
end

/-- The ways in which two values can be equal: by content, or because they are the same. -/
inductive EqualBy : Value → Value → Prop
  | number {x y : Float} (h : (x == y) = true) : EqualBy (number x) (number y)
  | string (s : String) : EqualBy (string s) (string s)
  | boolean (b : Bool) : EqualBy (boolean b) (boolean b)
  | array {vs ws : List Value} (h : equalsAll vs ws = true) : EqualBy (array vs) (array ws)
  | variable (id id' : Nat) (x : String) : EqualBy (code id (.var x)) (code id' (.var x))
  | identity {v w : Value} {k : Nat} (hv : v.identity? = some k) (hw : w.identity? = some k) :
      EqualBy v w

/-- A value with an identity equals whatever has the same. -/
theorem equals_iff_of_identity? (h : v.identity? = some k) :
    v.equals w = true ↔ w.identity? = some k := by
  rw [equals.eq_6]
  · simp [h, eq_comm]
  · rintro x y rfl; cases h
  · rintro x y rfl; cases h
  · rintro x y rfl; cases h
  · rintro x y rfl; cases h
  · rintro id x id' y rfl; cases h

theorem equals_iff_equalBy : v.equals w = true ↔ EqualBy v w := by
  constructor
  · intro h
    fun_cases equals v w with
    | case1 x y => exact .number h
    | case2 s t =>
      obtain rfl : s = t := by simpa [equals] using h
      exact .string _
    | case3 b c =>
      obtain rfl : b = c := by simpa [equals] using h
      exact .boolean _
    | case4 vs ws => exact .array h
    | case5 id x id' y =>
      obtain rfl : x = y := by simpa [equals] using h
      exact .variable ..
    | case6 =>
      rename_i hn hs hb ha hc
      rw [equals.eq_6 v w hn hs hb ha hc] at h
      obtain ⟨hsome, heq⟩ := by simpa using h
      obtain ⟨k, hk⟩ := Option.isSome_iff_exists.mp hsome
      exact .identity hk (heq ▸ hk)
  · rintro (h | s | b | h | ⟨id, id', x⟩ | ⟨hv, hw⟩)
    · exact h
    · simp [equals]
    · simp [equals]
    · exact h
    · simp [equals]
    · exact (equals_iff_of_identity? hv).mpr hw

mutual
theorem equals_self : (v : Value) → v.isDefinite = true → v.equals v = true
  | number x, h => Number.beq_self_of_isNaN_eq_false (by simpa [isDefinite] using h)
  | string s, _ => equals_iff_equalBy.mpr (.string s)
  | boolean b, _ => equals_iff_equalBy.mpr (.boolean b)
  | array items, h => equalsAll_self items h
  | error .., _ | module _, _ | native _, _ | closure .., _ | curried .., _ =>
    equals_iff_equalBy.mpr (.identity rfl rfl)
theorem equalsAll_self : (vs : List Value) → areDefinite vs = true → equalsAll vs vs = true
  | [], _ => rfl
  | v :: rest, h => by
    obtain ⟨hv, hrest⟩ := by simpa [areDefinite] using h
    rw [equalsAll, equals_self v hv, equalsAll_self rest hrest]
    rfl
end

theorem equalsAll_cons_iff {vs ws : List Value} :
    equalsAll (v :: vs) (w :: ws) = true ↔ v.equals w = true ∧ equalsAll vs ws = true := by
  simp [equalsAll]

mutual
theorem equals_symm : (v w : Value) → v.equals w = true → w.equals v = true := fun v w h => by
  cases equals_iff_equalBy.mp h with
  | number h => exact BEq.symm h
  | string | boolean | «variable» => exact h
  | array h => exact equalsAll_symm _ _ h
  | identity hv hw => exact equals_iff_equalBy.mpr (.identity hw hv)
theorem equalsAll_symm : (vs ws : List Value) → equalsAll vs ws = true → equalsAll ws vs = true
  | [], [], _ => rfl
  | v :: vs, w :: ws, h => by
    obtain ⟨hv, hvs⟩ := equalsAll_cons_iff.mp h
    exact equalsAll_cons_iff.mpr ⟨equals_symm v w hv, equalsAll_symm vs ws hvs⟩
end

mutual
theorem equals_trans :
    (u v w : Value) → u.equals v = true → v.equals w = true → u.equals w = true :=
  fun u v w huv hvw => by
  cases equals_iff_equalBy.mp huv with
  | number h =>
    cases equals_iff_equalBy.mp hvw with
    | number h' => exact BEq.trans h h'
    | identity hv => cases hv
  | string | boolean => exact hvw
  | array h =>
    cases equals_iff_equalBy.mp hvw with
    | array h' => exact equalsAll_trans _ _ _ h h'
    | identity hv => cases hv
  | «variable» id id' x =>
    cases equals_iff_equalBy.mp hvw with
    | «variable» => exact huv
    | identity hv => cases hv
  | identity hu hv =>
    have hw := (equals_iff_of_identity? hv).mp hvw
    exact (equals_iff_of_identity? hu).mpr hw
theorem equalsAll_trans : (us vs ws : List Value) → equalsAll us vs = true →
    equalsAll vs ws = true → equalsAll us ws = true
  | [], [], [], _, _ => rfl
  | u :: us, v :: vs, w :: ws, huv, hvw => by
    obtain ⟨hu, hus⟩ := equalsAll_cons_iff.mp huv
    obtain ⟨hv, hvs⟩ := equalsAll_cons_iff.mp hvw
    exact equalsAll_cons_iff.mpr ⟨equals_trans u v w hu hv, equalsAll_trans us vs ws hus hvs⟩
end

end Value

namespace Memo.Key

open Value

variable {v w : Value} {k : Nat}

theorem ofValue_of_identity? (h : v.identity? = some k) : ofValue v = identity (some k) := by
  cases v <;> first | cases h; done | rw [ofValue, h] <;> nofun

mutual
/-- Equal values have the same key. -/
theorem ofValue_eq_of_equals : (v w : Value) → v.equals w = true → ofValue v = ofValue w :=
  fun v w h => by
  cases equals_iff_equalBy.mp h with
  | number h => exact congrArg Key.number (Number.keyBits_eq_of_beq h)
  | string | boolean | «variable» => rfl
  | array h => exact congrArg Key.array (ofValues_eq_of_equals _ _ h)
  | identity hv hw => rw [ofValue_of_identity? hv, ofValue_of_identity? hw]
theorem ofValues_eq_of_equals :
    (vs ws : List Value) → equalsAll vs ws = true → ofValues vs = ofValues ws
  | [], [], _ => rfl
  | v :: vs, w :: ws, h => by
    obtain ⟨hv, hvs⟩ := equalsAll_cons_iff.mp h
    rw [ofValues, ofValues, ofValue_eq_of_equals v w hv, ofValues_eq_of_equals vs ws hvs]
end

theorem identity?_of_ofValue {id : Option Nat} (h : ofValue v = identity id) :
    v.identity? = id := by
  cases v <;> first | exact Key.identity.inj h | cases h

mutual
/-- Among definite values, those with the same key are equal. -/
theorem equals_of_ofValue_eq : (v w : Value) → v.isDefinite = true → w.isDefinite = true →
    ofValue v = ofValue w → v.equals w = true
  | .number x, w, hv, _, h => by
    cases w with
    | number y =>
      have hx : x.isNaN = false := by simpa [isDefinite] using hv
      exact (Number.keyBits_eq_iff hx).mp (Key.number.inj h)
    | _ => cases h
  | .string s, w, _, _, h => by
    cases w with
    | string t =>
      obtain rfl := Key.string.inj h
      exact equals_iff_equalBy.mpr (.string s)
    | _ => cases h
  | .boolean b, w, _, _, h => by
    cases w with
    | boolean c =>
      obtain rfl := Key.boolean.inj h
      exact equals_iff_equalBy.mpr (.boolean b)
    | _ => cases h
  | .array vs, w, hv, hw, h => by
    cases w with
    | array ws => exact equalsAll_of_ofValues_eq vs ws hv hw (Key.array.inj h)
    | _ => cases h
  | .error .., w, _, _, h | .module _, w, _, _, h | .native _, w, _, _, h
  | .closure .., w, _, _, h | .curried .., w, _, _, h =>
    (equals_iff_of_identity? rfl).mpr (identity?_of_ofValue h.symm)
theorem equalsAll_of_ofValues_eq : (vs ws : List Value) → areDefinite vs = true →
    areDefinite ws = true → ofValues vs = ofValues ws → equalsAll vs ws = true
  | [], [], _, _, _ => rfl
  | v :: vs, w :: ws, hvs, hws, h => by
    obtain ⟨hv, hvs⟩ := by simpa [areDefinite] using hvs
    obtain ⟨hw, hws⟩ := by simpa [areDefinite] using hws
    obtain ⟨hkey, hkeys⟩ := List.cons.inj h
    exact equalsAll_cons_iff.mpr
      ⟨equals_of_ofValue_eq v w hv hw hkey, equalsAll_of_ofValues_eq vs ws hvs hws hkeys⟩
end

/-- Definite values have the same keys just if they are equal. -/
theorem ofValues_eq_iff {vs ws : List Value} (hvs : areDefinite vs = true)
    (hws : areDefinite ws = true) : ofValues vs = ofValues ws ↔ equalsAll vs ws = true :=
  ⟨equalsAll_of_ofValues_eq vs ws hvs hws, ofValues_eq_of_equals vs ws⟩

end Memo.Key

namespace Value

/-- Equality is an equivalence relation between definite values, and cache keys tell exactly those
apart that are not equal. Equal values have the same key even if there is a NaN in them.
-/
theorem equals_equivalence :
    Equivalence (fun v w : {v : Value // v.isDefinite = true} => v.1.equals w.1 = true) ∧
      (∀ v w : Value, v.isDefinite = true → w.isDefinite = true →
        (Memo.Key.ofValue v = Memo.Key.ofValue w ↔ v.equals w = true)) ∧
      ∀ v w : Value, v.equals w = true → Memo.Key.ofValue v = Memo.Key.ofValue w := by
  refine ⟨⟨?_, ?_, ?_⟩, ?_, Memo.Key.ofValue_eq_of_equals⟩
  · exact fun v => equals_self v.1 v.2
  · exact fun h => equals_symm _ _ h
  · exact fun h h' => equals_trans _ _ _ h h'
  · exact fun v w hv hw =>
      ⟨Memo.Key.equals_of_ofValue_eq v w hv hw, Memo.Key.ofValue_eq_of_equals v w⟩

/-- Arrays with different zeros and the same function in them are equal and have the same key. -/
theorem equals_equivalence_zeros :
    let f := closure 7 ⟨"f", ["x"], .var "x"⟩ .root
    let v := array [number 0, array [f, string "a"]]
    let w := array [number (-0), array [f, string "a"]]
    v.isDefinite = true ∧ w.isDefinite = true ∧ v.equals w = true ∧ w.equals v = true ∧
      Memo.Key.ofValue v = Memo.Key.ofValue w := by
  intro f v w
  have hv : v.isDefinite = true := by decide +kernel
  have hw : w.isDefinite = true := by decide +kernel
  have heq : v.equals w = true := by decide +kernel
  obtain ⟨hequiv, hkeys, -⟩ := equals_equivalence
  exact ⟨hv, hw, heq, hequiv.symm (x := ⟨v, hv⟩) (y := ⟨w, hw⟩) heq, (hkeys v w hv hw).mpr heq⟩

end Value

end ChainScript
