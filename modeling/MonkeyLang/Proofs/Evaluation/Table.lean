import MonkeyLang.Eval
import MonkeyLang.Proofs.Evaluation
import MonkeyLang.Proofs.Upsert
import MonkeyLang.Proofs.Word

/-!
Hash literals as tables. Whatever the keys of a literal are, and however often they are repeated,
the hash has one entry for each slot: slots stand in the order in which they first come, and each
holds the key and the value that come last for it.
-/

namespace MonkeyLang

namespace Value

/-! ## Slots -/

/-- The entries of a hash that was made of these pairs: one for each slot, in the order in which
the slots first come, with the key and the value of the last pair for it. -/
structure Tabulates (pairs entries : List (Key × Value)) : Prop where
  order : entries.map (·.1.slot) = (pairs.map (·.1.slot)).eraseDups
  distinct : (entries.map (·.1.slot)).Nodup
  last : ∀ e ∈ entries, LastWith (·.1.slot) e.1.slot e pairs

theorem tabulates_tabulate (pairs : List (Key × Value)) :
    Tabulates pairs (tabulate (·.1.slot) pairs) where
  order := map_key_tabulate _ pairs
  distinct := nodup_map_key_tabulate _ pairs
  last e he := (withKey?_tabulate _ _ e pairs).mp
    (withKey?_of_mem _ (nodup_map_key_tabulate _ pairs) he)

namespace Key

/-- A number is a signed word; other keys are no numbers. -/
def Fits : Key → Prop
  | integer n => Word.InRange n
  | boolean _ | string _ => True

/-- The keys are of one type, and they are the same number, the same truth value, or strings whose
UTF-8 forms have the same hash. -/
def Agrees : Key → Key → Prop
  | integer m, integer n => m = n
  | boolean a, boolean b => a = b
  | string s, string t => Word.fnv1a s.toUTF8.data.toList = Word.fnv1a t.toUTF8.data.toList
  | _, _ => False

/-- Keys of different types have different slots, and keys of one type are told apart by their
bits. -/
theorem slot_eq_iff {j k : Key} (hj : j.Fits) (hk : k.Fits) : j.slot = k.slot ↔ j.Agrees k := by
  cases j with
  | integer m =>
    cases k with
    | integer n => simpa [slot, Agrees] using Word.bits_inj hj hk
    | boolean _ | string _ => simp [slot, Agrees]
  | boolean a =>
    cases k with
    | boolean b => cases a <;> cases b <;> simp [slot, Agrees]
    | integer _ | string _ => simp [slot, Agrees]
  | string s =>
    cases k with
    | string t => simpa [slot, Agrees] using Word.fnv_inj
    | integer _ | boolean _ => simp [slot, Agrees]

end Key

/-! ## Indexing -/

theorem slotValue?_tabulate (pairs : List (Key × Value)) (k : Key) :
    (∀ e, LastWith (·.1.slot) k.slot e pairs →
        slotValue? k (tabulate (·.1.slot) pairs) = some e.2) ∧
      ((∀ e ∈ pairs, e.1.slot ≠ k.slot) → slotValue? k (tabulate (·.1.slot) pairs) = none) := by
  constructor
  · intro e he
    rw [slotValue?, (withKey?_tabulate _ _ e pairs).mpr he]
    rfl
  · intro hnone
    rw [slotValue?, (withKey?_tabulate_eq_none _ _ pairs).mpr hnone]
    rfl

theorem index_hash {id : Nat} {entries : List (Key × Value)} {i : Value} {k : Key}
    (hk : i.key? = some k) :
    (hash id entries).index i = .ok ((slotValue? k entries).getD .null) := by
  cases i <;> cases hk <;> rfl

end Value

/-! ## Evaluation -/

/-- From left to right, each key and then its value is evaluated, the key to something that can be a
key and the value to no error; these are the pairs that come out, and the store behind them. -/
inductive YieldsPairs (ev : Node → Eval Value) :
    Store → List (Node × Node) → List (Value.Key × Value) → Store → Prop
  | nil {s : Store} : YieldsPairs ev s [] [] s
  | cons {s s₁ s₂ s₃ : Store} {k v : Node} {kv value : Value} {key : Value.Key}
      {nodes : List (Node × Node)} {pairs : List (Value.Key × Value)} :
      ev k s = .ok kv s₁ → kv.key? = some key → ev v s₁ = .ok value s₂ → value.isError = false →
      YieldsPairs ev s₂ nodes pairs s₃ →
      YieldsPairs ev s ((k, v) :: nodes) ((key, value) :: pairs) s₃

/-- The entries of a literal are put in one after another. -/
theorem YieldsPairs.eachEntry {ev : Node → Eval Value} {s s' : Store} {nodes : List (Node × Node)}
    {pairs entries : List (Value.Key × Value)} (h : YieldsPairs ev s nodes pairs s')
    (next : List (Value.Key × Value) → Eval Value) :
    Eval.eachEntry ev next nodes entries s =
      next (pairs.foldl (fun es e => upsert (·.1.slot) e es) entries) s' := by
  induction h generalizing entries with
  | nil => rfl
  | cons hk hkey hv herr _ ih =>
    rw [Eval.eachEntry, Eval.unlessError_next hk (Value.isError_of_key? hkey)]
    simp only [hkey]
    rw [Eval.unlessError_next hv herr]
    exact ih

open Value in
/-- A hash literal is a finite map by slots. If its keys can be keys and none of its values is an
error, it makes the table of its pairs; an index finds the value of the last pair that has its
slot, and null if there is none. Slots tell numbers, truth values and strings apart, the strings
up to their hash. -/
theorem hash_literal_tabulates {limit : Nat} {env : FrameId} {t : Token}
    {nodes : List (Node × Node)} {pairs : List (Key × Value)} {s s' : Store}
    (h : YieldsPairs (eval limit env) s nodes pairs s') :
    (∃ entries, eval (limit + 1) env (.hash t nodes) s =
        .ok (.hash s'.nextId entries) s'.takeId.2 ∧
      Tabulates pairs entries ∧
      ∀ (i : Value) (k : Key), i.key? = some k →
        (∀ e, LastWith (·.1.slot) k.slot e pairs →
          (Value.hash s'.nextId entries).index i = .ok e.2) ∧
        ((∀ e ∈ pairs, e.1.slot ≠ k.slot) →
          (Value.hash s'.nextId entries).index i = .ok .null)) ∧
      ∀ j k : Key, j.Fits → k.Fits → (j.slot = k.slot ↔ j.Agrees k) := by
  refine ⟨⟨tabulate (·.1.slot) pairs, h.eachEntry _, tabulates_tabulate pairs, ?_⟩,
    fun j k => Key.slot_eq_iff⟩
  intro i k hk
  obtain ⟨hlast, hnone⟩ := slotValue?_tabulate pairs k
  constructor
  · intro e he
    rw [index_hash hk, hlast e he]
    rfl
  · intro hall
    rw [index_hash hk, hnone hall]
    rfl

/-- Two strings with the same hash, a truth value that is there twice, and a negative number. -/
def repeatedKeys : List (Node × Node) :=
  [(.string .unset "8yn0iYCKYHlIj4-BwPqk", .integer .unset 1),
    (.boolean .unset true, .integer .unset 2),
    (.unary .unset "-" (.integer .unset 1), .integer .unset 3),
    (.string .unset "GReLUrM4wMqfg9yzV3KQ", .integer .unset 4),
    (.boolean .unset true, .integer .unset 5)]

def repeatedPairs : List (Value.Key × Value) :=
  [(.string "8yn0iYCKYHlIj4-BwPqk", .integer 1), (.boolean true, .integer 2),
    (.integer (-1), .integer 3), (.string "GReLUrM4wMqfg9yzV3KQ", .integer 4),
    (.boolean true, .integer 5)]

theorem pairs_repeatedKeys (s : Store) : YieldsPairs (eval 2 0) s repeatedKeys repeatedPairs s :=
  .cons rfl rfl rfl rfl (.cons rfl rfl rfl rfl (.cons rfl rfl rfl rfl
    (.cons rfl rfl rfl rfl (.cons rfl rfl rfl rfl .nil))))

open Value in
/-- The two strings share a slot, and the entry of the first is found in the place of the second. -/
theorem hash_literal_tabulates_repeatedKeys :
    YieldsPairs (eval 2 0) .empty repeatedKeys repeatedPairs .empty ∧
      (Key.string "8yn0iYCKYHlIj4-BwPqk").slot = (Key.string "GReLUrM4wMqfg9yzV3KQ").slot ∧
      (∃ entries, eval 3 0 (.hash .unset repeatedKeys) .empty =
          .ok (.hash 0 entries) Store.empty.takeId.2 ∧
        Tabulates repeatedPairs entries ∧
        ∀ (i : Value) (k : Key), i.key? = some k →
          (∀ e, LastWith (·.1.slot) k.slot e repeatedPairs →
            (Value.hash 0 entries).index i = .ok e.2) ∧
          ((∀ e ∈ repeatedPairs, e.1.slot ≠ k.slot) →
            (Value.hash 0 entries).index i = .ok .null)) ∧
        ∀ j k : Key, j.Fits → k.Fits → (j.slot = k.slot ↔ j.Agrees k) :=
  ⟨pairs_repeatedKeys _, by decide +kernel, hash_literal_tabulates (pairs_repeatedKeys _)⟩

end MonkeyLang
