import Mathlib.Data.Finset.Card
import Mathlib.Data.List.AList

/-!
# Counting distinct senders up to a threshold

A book keeps a sheet for each key, and a sheet the latest message of each
sender. A sheet with as many senders as the threshold asks for is closed. The
message that completes a sheet is announced. Histories list the messages newest
first; what a book announces depends only on how many senders its history has
for a key, before the message and with it.
-/
namespace Threshold

variable {K S M : Type} [DecidableEq K] [DecidableEq S]

abbrev Sheet (S M : Type) := AList fun _ : S => M

abbrev Book (K S M : Type) := AList fun _ : K => Sheet S M

/-! ## One key -/

/-- Everybody who has sent a message. -/
def heard (h : List (S × M)) : Finset S := (h.map Prod.fst).toFinset

def latest (h : List (S × M)) (s : S) : Option M := (h.find? (·.1 = s)).map Prod.snd

@[simp] theorem heard_nil : heard ([] : List (S × M)) = ∅ := rfl

@[simp] theorem heard_cons (s : S) (x : M) (h : List (S × M)) :
    heard ((s, x) :: h) = insert s (heard h) := by
  simp [heard]

theorem latest_cons (s s' : S) (x : M) (h : List (S × M)) :
    latest ((s, x) :: h) s' = if s' = s then some x else latest h s' := by
  by_cases heq : s' = s
  · subst heq
    simp [latest]
  · simp [latest, heq, Ne.symm heq]

theorem latest_isSome {h : List (S × M)} {s : S} : (latest h s).isSome ↔ s ∈ heard h := by
  induction h with
  | nil => simp [latest]
  | cons e h ih =>
    obtain ⟨s', x⟩ := e
    rw [latest_cons, heard_cons, Finset.mem_insert]
    by_cases heq : s = s'
    · simp [heq]
    · simp [heq, ih]

/-- The sheet holds the latest message of each sender. -/
def Current (h : List (S × M)) (m : Sheet S M) : Prop := ∀ s, m.lookup s = latest h s

theorem Current.keys {h : List (S × M)} {m : Sheet S M} (hm : Current h m) :
    m.keys.toFinset = heard h := by
  ext s
  rw [List.mem_toFinset, ← AList.mem_keys, ← AList.lookup_isSome, hm s, latest_isSome]

theorem Current.length {h : List (S × M)} {m : Sheet S M} (hm : Current h m) :
    m.entries.length = (heard h).card := by
  rw [← hm.keys, List.toFinset_card_of_nodup m.keys_nodup]
  simp [AList.keys, List.keys]

/-- Current sheets of one history differ in their order only. -/
theorem Current.perm {h : List (S × M)} {m m' : Sheet S M} (hm : Current h m)
    (hm' : Current h m') : m.entries.Perm m'.entries :=
  List.lookup_ext m.nodupKeys m'.nodupKeys fun s x => by
    rw [← AList.lookup, ← AList.lookup, hm s, hm' s]

theorem Current.insert {h : List (S × M)} {m : Sheet S M} (hm : Current h m) (s : S) (x : M) :
    Current ((s, x) :: h) (m.insert s x) := by
  intro s'
  rw [latest_cons]
  by_cases heq : s' = s
  · subst heq
    simp [AList.lookup_insert]
  · rw [AList.lookup_insert_ne heq, if_neg heq, hm s']

/-- Open sheets are current, closed ones are full. -/
structure Counts (T : ℕ) (h : List (S × M)) (m : Sheet S M) : Prop where
  current : (heard h).card < T → Current h m
  full : T ≤ (heard h).card → T ≤ m.entries.length

theorem counts_empty {T : ℕ} (hT : 0 < T) : Counts T ([] : List (S × M)) ∅ where
  current _ s := by simp [latest]
  full hle := by simp at hle; omega

/-! ## Many keys -/

def sheet (b : Book K S M) (k : K) : Sheet S M := (b.lookup k).getD ∅

/-- The book after a message, and whether the message completes its sheet. -/
def add (T : ℕ) (b : Book K S M) (k : K) (s : S) (x : M) : Bool × Book K S M :=
  if T ≤ (sheet b k).entries.length then (false, b)
  else
    let b' := b.insert k ((sheet b k).insert s x)
    (decide (T ≤ (sheet b' k).entries.length), b')

omit [DecidableEq S] in
@[simp] theorem sheet_insert (b : Book K S M) (k k' : K) (m : Sheet S M) :
    sheet (b.insert k m) k' = if k' = k then m else sheet b k' := by
  by_cases heq : k' = k
  · subst heq
    simp [sheet, AList.lookup_insert]
  · simp [sheet, AList.lookup_insert_ne heq, heq]

/-- The part of a history that concerns one key. -/
def onKey (k : K) (h : List (K × S × M)) : List (S × M) :=
  h.filterMap fun e => if e.1 = k then some e.2 else none

omit [DecidableEq S] in
@[simp] theorem onKey_cons (k k' : K) (e : S × M) (h : List (K × S × M)) :
    onKey k' ((k, e) :: h) = if k = k' then e :: onKey k' h else onKey k' h := by
  by_cases heq : k = k' <;> simp [onKey, heq]

/-- A book that agrees with a history. -/
def Kept (T : ℕ) (h : List (K × S × M)) (b : Book K S M) : Prop :=
  ∀ k, Counts T (onKey k h) (sheet b k)

theorem kept_empty {T : ℕ} (hT : 0 < T) : Kept T ([] : List (K × S × M)) ∅ := by
  refine fun k => ⟨fun _ s => ?_, fun hle => ?_⟩
  · simp [sheet, latest, onKey]
  · simp only [onKey, List.filterMap_nil, heard_nil, Finset.card_empty] at hle
    omega

variable {T : ℕ} {h : List (K × S × M)} {b : Book K S M}

/-- A closed sheet takes no messages. -/
theorem add_closed {k : K} (hk : T ≤ (sheet b k).entries.length) (s : S) (x : M) :
    add T b k s x = (false, b) := by
  simp [add, hk]

theorem add_open {k : K} (hk : (sheet b k).entries.length < T) (s : S) (x : M) :
    add T b k s x = (decide (T ≤ ((sheet b k).insert s x).entries.length),
      b.insert k ((sheet b k).insert s x)) := by
  simp only [add, if_neg (Nat.not_le.mpr hk), sheet_insert, ↓reduceIte]

/-- A message is announced exactly if with it, and not before, its key has
enough senders; the sheet then holds the latest message of each. -/
theorem Kept.add (hb : Kept T h b) (k : K) (s : S) (x : M) :
    Kept T ((k, s, x) :: h) (add T b k s x).2 ∧
    ((Threshold.add T b k s x).1 = true ↔ (heard (onKey k h)).card < T ∧
      T ≤ (heard (onKey k ((k, s, x) :: h))).card) ∧
    ((Threshold.add T b k s x).1 = true →
      Current (onKey k ((k, s, x) :: h)) (sheet (Threshold.add T b k s x).2 k)) := by
  by_cases hT : T ≤ (heard (onKey k h)).card
  · have hmono : (heard (onKey k h)).card ≤ (heard (onKey k ((k, s, x) :: h))).card := by
      simpa using Finset.card_le_card (Finset.subset_insert s (heard (onKey k h)))
    rw [add_closed ((hb k).full hT)]
    refine ⟨fun k' => ?_, by simp; omega, fun hr => by cases hr⟩
    by_cases heq : k' = k
    · subst heq
      exact ⟨fun hlt => by omega, fun _ => (hb k').full hT⟩
    · simpa [Ne.symm heq] using hb k'
  · have hcur := (hb k).current (by omega)
    have hnew := hcur.insert s x
    rw [add_open (by rw [hcur.length]; omega)]
    refine ⟨fun k' => ?_, ?_, fun _ => by simpa using hnew⟩
    · by_cases heq : k' = k
      · subst heq
        simp only [onKey_cons, ↓reduceIte, sheet_insert]
        exact ⟨fun _ => hnew, fun hle => by rwa [hnew.length]⟩
      · simpa [heq, Ne.symm heq] using hb k'
    · simp only [decide_eq_true_eq, onKey_cons, ↓reduceIte, hnew.length]
      omega

/-- The same for the sheet of one key, whatever the others hold. -/
theorem Counts.add {k : K} {hist : List (S × M)} (hb : Counts T hist (sheet b k)) (s : S) (x : M) :
    Counts T ((s, x) :: hist) (sheet (add T b k s x).2 k) ∧
    ((Threshold.add T b k s x).1 = true ↔ (heard hist).card < T ∧
      T ≤ (heard ((s, x) :: hist)).card) := by
  have hmono : (heard hist).card ≤ (heard ((s, x) :: hist)).card := by
    simpa using Finset.card_le_card (Finset.subset_insert s (heard hist))
  by_cases hT : T ≤ (heard hist).card
  · rw [add_closed (hb.full hT)]
    refine ⟨⟨fun hlt => by omega, fun _ => hb.full hT⟩, ?_⟩
    simp only [Bool.false_eq_true, false_iff]
    omega
  · have hcur := hb.current (by omega)
    have hnew := hcur.insert s x
    rw [add_open (by rw [hcur.length]; omega), sheet_insert, if_pos rfl]
    refine ⟨⟨fun _ => hnew, fun hle => by rwa [hnew.length]⟩, ?_⟩
    simp only [decide_eq_true_eq, hnew.length]
    omega

theorem sheet_add_ne {k k' : K} (h : k' ≠ k) (s : S) (x : M) :
    sheet (add T b k s x).2 k' = sheet b k' := by
  by_cases hk : T ≤ (sheet b k).entries.length
  · rw [add_closed hk]
  · rw [add_open (Nat.not_le.mp hk), sheet_insert, if_neg h]

/-! ## Throwing sheets away -/

/-- The history without the messages on some keys. -/
def forget (ks : List K) (h : List (K × S × M)) : List (K × S × M) := h.filter (·.1 ∉ ks)

omit [DecidableEq S] in
theorem onKey_forget (ks : List K) (h : List (K × S × M)) (k : K) :
    onKey k (forget ks h) = if k ∈ ks then [] else onKey k h := by
  induction h with
  | nil => simp [forget, onKey]
  | cons e h ih =>
    obtain ⟨k', e⟩ := e
    by_cases hmem : k' ∈ ks
    · have hskip : forget ks ((k', e) :: h) = forget ks h := by simp [forget, hmem]
      rw [hskip, ih, onKey_cons]
      split_ifs with hk heq <;> simp_all
    · have hkeep : forget ks ((k', e) :: h) = (k', e) :: forget ks h := by simp [forget, hmem]
      rw [hkeep, onKey_cons, onKey_cons, ih]
      split_ifs with heq hk <;> simp_all

omit [DecidableEq S] in
theorem sheet_erase (b : Book K S M) (k k' : K) :
    sheet (b.erase k) k' = if k' = k then ∅ else sheet b k' := by
  by_cases heq : k' = k
  · subst heq
    simp [sheet, AList.lookup_erase]
  · simp [sheet, heq, AList.lookup_erase_ne heq]

omit [DecidableEq S] in
theorem sheet_foldl_erase (ks : List K) (b : Book K S M) (k : K) :
    sheet (ks.foldl (fun b k => b.erase k) b) k = if k ∈ ks then ∅ else sheet b k := by
  induction ks generalizing b with
  | nil => simp
  | cons k' ks ih =>
    rw [List.foldl_cons, ih, sheet_erase]
    by_cases hmem : k ∈ ks <;> by_cases heq : k = k' <;> simp [hmem, heq]

theorem Kept.foldl_erase (hT : 0 < T) (hb : Kept T h b) (ks : List K) :
    Kept T (forget ks h) (ks.foldl (fun b k => b.erase k) b) := by
  intro k
  rw [onKey_forget, sheet_foldl_erase]
  by_cases hmem : k ∈ ks
  · simpa [hmem, onKey, sheet] using kept_empty (S := S) (M := M) hT k
  · simpa [hmem] using hb k

/-- A message in a book was there before or is the one just added. -/
theorem lookup_add {k k' : K} {s s' : S} {x x' : M}
    (hx : (sheet (add T b k s x).2 k').lookup s' = some x') :
    (k' = k ∧ s' = s ∧ x' = x) ∨ (sheet b k').lookup s' = some x' := by
  by_cases hk : T ≤ (sheet b k).entries.length
  · rw [add_closed hk] at hx
    exact Or.inr hx
  · rw [add_open (Nat.not_le.mp hk), sheet_insert] at hx
    by_cases hkey : k' = k
    · subst hkey
      rw [if_pos rfl] at hx
      by_cases hs : s' = s
      · subst hs
        rw [AList.lookup_insert] at hx
        exact Or.inl ⟨rfl, rfl, (Option.some.inj hx).symm⟩
      · rw [AList.lookup_insert_ne hs] at hx
        exact Or.inr hx
    · rw [if_neg hkey] at hx
      exact Or.inr hx

end Threshold
