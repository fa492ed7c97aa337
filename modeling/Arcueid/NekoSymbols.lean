import Mathlib.Data.List.Basic
import Mathlib.Logic.Function.Basic

/-! The symbol table of nekoarc (`Symbol.java`) under collections that clear its
weak references, and the hash of names (`MurmurHash.java`). -/

namespace Arcueid.Neko

/-- The code units of a string. -/
abbrev JavaString := List UInt16

def units (s : String) : JavaString := s.toList.map fun ch => UInt16.ofNat ch.toNat

namespace MurmurHash

/-- `getBytes("UTF8")`. A surrogate without its partner becomes a question mark. -/
def getBytes : JavaString → List UInt8
  | [] => []
  | u :: us =>
    let n := u.toNat
    if n < 0x80 then .ofNat n :: getBytes us
    else if n < 0x800 then .ofNat (0xC0 + n / 64) :: .ofNat (0x80 + n % 64) :: getBytes us
    else if n < 0xD800 ∨ 0xE000 ≤ n then
      .ofNat (0xE0 + n / 4096) :: .ofNat (0x80 + n / 64 % 64) :: .ofNat (0x80 + n % 64) :: getBytes us
    else match us with
    | [] => [0x3F]
    | v :: vs =>
      let m := v.toNat
      if n < 0xDC00 ∧ 0xDC00 ≤ m ∧ m < 0xE000 then
        let cp := 0x10000 + (n - 0xD800) * 1024 + (m - 0xDC00)
        .ofNat (0xF0 + cp / 262144) :: .ofNat (0x80 + cp / 4096 % 64) ::
          .ofNat (0x80 + cp / 64 % 64) :: .ofNat (0x80 + cp % 64) :: getBytes vs
      else 0x3F :: getBytes (v :: vs)

structure State where
  h1 : UInt64
  h2 : UInt64

def c1 : UInt64 := 0x87c37b91114253d5

def c2 : UInt64 := 0x4cf5ad432745937f

def rotl (x : UInt64) (n : UInt64) : UInt64 := (x <<< n) ||| (x >>> (64 - n))

def mixK1 (k1 : UInt64) : UInt64 := rotl (k1 * c1) 31 * c2

def mixK2 (k2 : UInt64) : UInt64 := rotl (k2 * c2) 33 * c1

/-- Eight bytes, the lowest first. -/
def getblock : List UInt8 → UInt64
  | [] => 0
  | b :: bs => b.toUInt64 ||| (getblock bs <<< 8)

def bmix (state : State) (k1 k2 : UInt64) : State :=
  let h1 := (rotl (state.h1 ^^^ mixK1 k1) 27 + state.h2) * 5 + 0x52dce729
  let h2 := (rotl (state.h2 ^^^ mixK2 k2) 31 + h1) * 5 + 0x38495ab5
  ⟨h1, h2⟩

def fmix (k : UInt64) : UInt64 :=
  let k := (k ^^^ (k >>> 33)) * 0xff51afd7ed558ccd
  let k := (k ^^^ (k >>> 33)) * 0xc4ceb9fe1a85ec53
  k ^^^ (k >>> 33)

/-- The loop over the blocks of sixteen bytes, with how many there are. -/
def blocks : Nat → List UInt8 → State → State
  | 0, _, state => state
  | n + 1, data, state =>
    blocks n (data.drop 16) (bmix state (getblock (data.take 8)) (getblock ((data.drop 8).take 8)))

/-- The bytes of the tail, which are shifted with their signs. -/
def tailWord : UInt64 → List UInt8 → UInt64
  | _, [] => 0
  | shift, b :: bs => (b.toInt8.toInt64.toUInt64 <<< shift) ^^^ tailWord (shift + 8) bs

/-- The switch on the length of the tail. -/
def tailMix (tail : List UInt8) (state : State) : State :=
  let h2 := if 8 < tail.length then state.h2 ^^^ mixK2 (tailWord 0 (tail.drop 8)) else state.h2
  let h1 := if 0 < tail.length then state.h1 ^^^ mixK1 (tailWord 0 (tail.take 8)) else state.h1
  ⟨h1, h2⟩

def hashBytes (data : List UInt8) (seed : UInt64) : UInt64 :=
  let n := data.length / 16
  let state := tailMix (data.drop (16 * n)) (blocks n data ⟨seed, seed⟩)
  let len := UInt64.ofNat data.length
  let h2 := state.h2 ^^^ len
  let h1 := (state.h1 ^^^ len) + h2
  let h2 := h2 + h1
  fmix h1 + fmix h2

def hash (str : JavaString) : UInt64 := hashBytes (getBytes str) 0x3243F6A8885A308D

end MurmurHash

/-- What `intern` returns. Symbols are the places of their objects. -/
inductive Interned where
  | t
  | nil
  | symbol (a : Nat)
  deriving DecidableEq

/-- The symbol objects with their names, the table of weak references, which are
none once they are cleared, the objects that can be reached, and the results of
`intern` so far. -/
structure Symtable where
  names : List JavaString
  symtable : UInt64 → Option (Option Nat)
  reached : List Nat
  results : List (JavaString × Interned)

namespace Symtable

def init : Symtable := ⟨[], fun _ => none, [], []⟩

variable (hash : JavaString → UInt64)

/-- `Symbol.intern`. -/
def intern (w : Symtable) (s : JavaString) : Interned × Symtable :=
  let hc := hash s
  if s = units "t" then (.t, w)
  else if s = units "nil" then (.nil, w)
  else match w.symtable hc with
  | some (some sym) => (.symbol sym, w)
  | _ => (.symbol w.names.length,
      { w with
        names := w.names ++ [s]
        symtable := Function.update w.symtable hc (some (some w.names.length)) })

def hold (w : Symtable) : Interned → Symtable
  | .symbol a => { w with reached := a :: w.reached }
  | _ => w

/-- The collector clears the weak references to an object. -/
def clear (w : Symtable) (a : Nat) : Symtable :=
  { w with symtable := fun hc => if w.symtable hc = some (some a) then some none else w.symtable hc }

end Symtable

/-- The program interns a string and holds the result, or it gives up the last
reference to an object, or the collector clears the references to an object
that cannot be reached. -/
inductive SymbolEvent where
  | intern (s : JavaString)
  | release (a : Nat)
  | collect (a : Nat)

namespace Symtable

variable (hash : JavaString → UInt64)

def step (w : Symtable) : SymbolEvent → Option Symtable
  | .intern s =>
    let (r, w) := w.intern hash s
    some { w.hold r with results := (s, r) :: w.results }
  | .release a => some { w with reached := w.reached.filter (· ≠ a) }
  | .collect a => if a ∈ w.reached then none else some (w.clear a)

def run (w : Symtable) : List SymbolEvent → Option Symtable
  | [] => some w
  | e :: es => (w.step hash e).bind fun w => run w es

def Reachable (w : Symtable) : Interned → Prop
  | .symbol a => a ∈ w.reached
  | _ => True

/-- Results that can be reached are one object just where the strings were equal. -/
def OneIdentity (w : Symtable) : Prop :=
  ∀ p ∈ w.results, ∀ q ∈ w.results, w.Reachable p.2 → w.Reachable q.2 → (p.2 = q.2 ↔ p.1 = q.1)

/-- A string meets a symbol of another name under its hash. -/
def Clashes (w : Symtable) (s : JavaString) : Prop :=
  s ≠ units "t" ∧ s ≠ units "nil" ∧ ∃ a, w.symtable (hash s) = some (some a) ∧ w.names[a]? ≠ some s

/-- A property of every state of a run. -/
def Always (P : Symtable → Prop) : Symtable → List SymbolEvent → Prop
  | w, [] => P w
  | w, e :: es => P w ∧ ∀ w', w.step hash e = some w' → Always P w' es

/-- No call of `intern` in a run meets a symbol of another name. -/
def NeverClashes : Symtable → List SymbolEvent → Prop
  | _, [] => True
  | w, e :: es => (∀ s, e = .intern s → ¬ w.Clashes hash s) ∧
      ∀ w', w.step hash e = some w' → NeverClashes w' es

/-- What holds in any run: entries are under the hashes of the names, objects that
can be reached have one, and each object is the result for its name. -/
structure Kept (w : Symtable) : Prop where
  entries : ∀ hc a, w.symtable hc = some (some a) → ∃ s, w.names[a]? = some s ∧ hash s = hc
  reached : ∀ a ∈ w.reached, ∃ s, w.names[a]? = some s ∧ w.symtable (hash s) = some (some a)
  named : ∀ a s, w.names[a]? = some s → (s, .symbol a) ∈ w.results

/-- A result is what belongs to its string. -/
def Belongs (w : Symtable) (p : JavaString × Interned) : Prop :=
  p.1 = units "t" ∧ p.2 = .t ∨ p.1 = units "nil" ∧ p.2 = .nil ∨
    p.1 ≠ units "t" ∧ p.1 ≠ units "nil" ∧ ∃ a, p.2 = .symbol a ∧ w.names[a]? = some p.1

section Runs

variable {hash : JavaString → UInt64} {w w' : Symtable} {s : JavaString} {e : SymbolEvent}
  {es : List SymbolEvent}

/-- What `intern` does. -/
theorem intern_cases (hash : JavaString → UInt64) (w : Symtable) (s : JavaString) :
    (s = units "t" ∧ w.intern hash s = (.t, w)) ∨
    (s = units "nil" ∧ w.intern hash s = (.nil, w)) ∨
    (s ≠ units "t" ∧ s ≠ units "nil" ∧
      ((∃ a, w.symtable (hash s) = some (some a) ∧ w.intern hash s = (.symbol a, w)) ∨
      ((∀ a, w.symtable (hash s) ≠ some (some a)) ∧ w.intern hash s = (.symbol w.names.length,
        { w with
          names := w.names ++ [s]
          symtable := Function.update w.symtable (hash s) (some (some w.names.length)) })))) := by
  by_cases ht : s = units "t"
  · exact .inl ⟨ht, if_pos ht⟩
  · by_cases hnil : s = units "nil"
    · exact .inr (.inl ⟨hnil, by rw [intern, if_neg ht, if_pos hnil]⟩)
    · right
      right
      refine ⟨ht, hnil, ?_⟩
      rw [intern, if_neg ht, if_neg hnil]
      cases hentry : w.symtable (hash s) with
      | none => exact .inr ⟨fun a ha => (by cases ha), rfl⟩
      | some ref =>
        cases ref with
        | none => exact .inr ⟨fun a ha => (by cases ha), rfl⟩
        | some a => exact .inl ⟨a, rfl, rfl⟩

theorem step_intern (hstep : w.step hash (.intern s) = some w') :
    w' = { (w.intern hash s).2.hold (w.intern hash s).1 with
      results := (s, (w.intern hash s).1) :: (w.intern hash s).2.results } :=
  (Option.some.inj hstep).symm

theorem kept_init : Kept hash init where
  entries := fun hc a h => by cases h
  reached := fun a h => by cases h
  named := fun a s h => by cases h

/-- A call that is answered from the table. -/
theorem Kept.found {a : Nat} (h : Kept hash w) (ha : w.symtable (hash s) = some (some a)) :
    Kept hash { w with reached := a :: w.reached, results := (s, .symbol a) :: w.results } where
  entries := h.entries
  reached := by
    intro b hb
    rcases List.mem_cons.mp hb with rfl | hb
    · obtain ⟨name, hname, hhash⟩ := h.entries _ _ ha
      exact ⟨name, hname, hhash.symm ▸ ha⟩
    · exact h.reached b hb
  named := fun b name hname => List.mem_cons_of_mem _ (h.named b name hname)

theorem Kept.name_lt {a : Nat} (h : Kept hash w) (ha : a ∈ w.reached) : a < w.names.length := by
  obtain ⟨name, hname, -⟩ := h.reached a ha
  exact (List.getElem?_eq_some_iff.mp hname).1

/-- A call that makes a new symbol. -/
theorem Kept.fresh (h : Kept hash w) (hfree : ∀ a, w.symtable (hash s) ≠ some (some a)) :
    Kept hash { w with
      names := w.names ++ [s]
      symtable := Function.update w.symtable (hash s) (some (some w.names.length))
      reached := w.names.length :: w.reached
      results := (s, .symbol w.names.length) :: w.results } where
  entries := by
    intro hc a ha
    have ha' : Function.update w.symtable (hash s) (some (some w.names.length)) hc =
        some (some a) := ha
    by_cases hhc : hc = hash s
    · subst hhc
      rw [Function.update_self] at ha'
      obtain rfl := Option.some.inj (Option.some.inj ha')
      exact ⟨s, List.getElem?_concat_length, rfl⟩
    · rw [Function.update_of_ne hhc] at ha'
      obtain ⟨name, hname, hhash⟩ := h.entries hc a ha'
      have hlt := (List.getElem?_eq_some_iff.mp hname).1
      exact ⟨name, (List.getElem?_append_left hlt).trans hname, hhash⟩
  reached := by
    intro b hb
    rcases List.mem_cons.mp hb with rfl | hb
    · exact ⟨s, List.getElem?_concat_length, Function.update_self _ _ _⟩
    · obtain ⟨name, hname, hentry⟩ := h.reached b hb
      have hne : hash name ≠ hash s := fun heq => hfree b (heq ▸ hentry)
      refine ⟨name, (List.getElem?_append_left (h.name_lt hb)).trans hname, ?_⟩
      exact (Function.update_of_ne hne _ _).trans hentry
  named := by
    intro b name hname
    by_cases hb : b < w.names.length
    · rw [List.getElem?_append_left hb] at hname
      exact List.mem_cons_of_mem _ (h.named b name hname)
    · have hlt := (List.getElem?_eq_some_iff.mp hname).1
      rw [List.length_append, List.length_singleton] at hlt
      obtain rfl : b = w.names.length := by omega
      rw [List.getElem?_concat_length] at hname
      obtain rfl := Option.some.inj hname
      exact List.mem_cons_self

/-- A result without an object. -/
theorem Kept.result {r : Interned} (h : Kept hash w) :
    Kept hash { w with results := (s, r) :: w.results } where
  entries := h.entries
  reached := h.reached
  named := fun b name hname => List.mem_cons_of_mem _ (h.named b name hname)

theorem Kept.step (h : Kept hash w) (hstep : w.step hash e = some w') : Kept hash w' := by
  cases e with
  | intern s =>
    rw [step_intern hstep]
    rcases intern_cases hash w s with ⟨-, heq⟩ | ⟨-, heq⟩ | ⟨-, -, ⟨a, ha, heq⟩ | ⟨hfree, heq⟩⟩
    · rw [heq]
      exact h.result
    · rw [heq]
      exact h.result
    · rw [heq]
      exact h.found ha
    · rw [heq]
      exact h.fresh hfree
  | release a =>
    obtain rfl := Option.some.inj hstep
    exact ⟨h.entries, fun b hb => h.reached b (List.mem_of_mem_filter hb), h.named⟩
  | collect a =>
    by_cases ha : a ∈ w.reached
    · rw [step, if_pos ha] at hstep
      cases hstep
    · rw [step, if_neg ha] at hstep
      obtain rfl := Option.some.inj hstep
      refine ⟨fun hc b hb => h.entries hc b ?_, fun b hb => ?_, h.named⟩
      · by_cases hentry : w.symtable hc = some (some a)
        · have hgone : (w.clear a).symtable hc = some none := if_pos hentry
          rw [hgone] at hb
          cases hb
        · have hsame : (w.clear a).symtable hc = w.symtable hc := if_neg hentry
          exact hsame ▸ hb
      · obtain ⟨name, hname, hentry⟩ := h.reached b hb
        have hne : w.symtable (hash name) ≠ some (some a) := by
          rw [hentry]
          intro heq
          obtain rfl := Option.some.inj (Option.some.inj heq)
          exact ha hb
        exact ⟨name, hname, (if_neg hne).trans hentry⟩

/-- Results that belong to their strings are one object just for equal strings. -/
theorem Kept.oneIdentity (h : Kept hash w) (hbelongs : ∀ p ∈ w.results, w.Belongs p) :
    w.OneIdentity := by
  intro p hp q hq hpr hqr
  have hsym : ∀ a b, p.2 = .symbol a → q.2 = .symbol b → w.names[a]? = some p.1 →
      w.names[b]? = some q.1 → (p.2 = q.2 ↔ p.1 = q.1) := by
    intro a b hpa hqb hna hnb
    rw [hpa] at hpr ⊢
    rw [hqb] at hqr ⊢
    obtain ⟨na, hna', hea⟩ := h.reached a hpr
    obtain ⟨nb, hnb', heb⟩ := h.reached b hqr
    obtain rfl := Option.some.inj (hna'.symm.trans hna)
    obtain rfl := Option.some.inj (hnb'.symm.trans hnb)
    constructor
    · intro heq
      obtain rfl := Interned.symbol.inj heq
      exact Option.some.inj (hna.symm.trans hnb)
    · intro heq
      rw [heq, heb] at hea
      rw [Option.some.inj (Option.some.inj hea)]
  have htnil : units "t" ≠ units "nil" := by decide
  rcases hbelongs p hp with ⟨h1, h2⟩ | ⟨h1, h2⟩ | ⟨ht, hnil, a, ha, hna⟩ <;>
    rcases hbelongs q hq with ⟨h3, h4⟩ | ⟨h3, h4⟩ | ⟨ht', hnil', b, hb, hnb⟩
  · exact iff_of_true (h2.trans h4.symm) (h1.trans h3.symm)
  · exact iff_of_false (by rw [h2, h4]; decide) (by rw [h1, h3]; exact htnil)
  · exact iff_of_false (by rw [h2, hb]; simp) (by rw [h1]; exact ht'.symm)
  · exact iff_of_false (by rw [h2, h4]; decide) (by rw [h1, h3]; exact htnil.symm)
  · exact iff_of_true (h2.trans h4.symm) (h1.trans h3.symm)
  · exact iff_of_false (by rw [h2, hb]; simp) (by rw [h1]; exact hnil'.symm)
  · exact iff_of_false (by rw [h4, ha]; simp) (by rw [h3]; exact ht)
  · exact iff_of_false (by rw [h4, ha]; simp) (by rw [h3]; exact hnil)
  · exact hsym a b ha hb hna hnb

theorem Belongs.names_append {p : JavaString × Interned} {names : List JavaString}
    (h : w.Belongs p) (hn : ∀ (a : Nat) n, w.names[a]? = some n → names[a]? = some n)
    (hw : w'.names = names) : w'.Belongs p := by
  rcases h with ht | hnil | ⟨ht, hnil, a, ha, hname⟩
  · exact .inl ht
  · exact .inr (.inl hnil)
  · exact .inr (.inr ⟨ht, hnil, a, ha, by rw [hw]; exact hn a _ hname⟩)

/-- A step that does not clash keeps what belongs to the strings. -/
theorem belongs_step (hbelongs : ∀ p ∈ w.results, w.Belongs p)
    (hclash : ∀ s, e = .intern s → ¬ w.Clashes hash s) (hstep : w.step hash e = some w') :
    ∀ p ∈ w'.results, w'.Belongs p := by
  cases e with
  | intern s =>
    have hno := hclash s rfl
    rw [step_intern hstep]
    rcases intern_cases hash w s with ⟨hs, heq⟩ | ⟨hs, heq⟩ | ⟨ht, hnil, ⟨a, ha, heq⟩ | ⟨hfree, heq⟩⟩
    · rw [heq]
      exact List.forall_mem_cons.mpr ⟨.inl ⟨hs, rfl⟩, hbelongs⟩
    · rw [heq]
      exact List.forall_mem_cons.mpr ⟨.inr (.inl ⟨hs, rfl⟩), hbelongs⟩
    · rw [heq]
      have hname : w.names[a]? = some s := by
        by_contra hne
        exact hno ⟨ht, hnil, a, ha, hne⟩
      exact List.forall_mem_cons.mpr ⟨.inr (.inr ⟨ht, hnil, a, rfl, hname⟩), hbelongs⟩
    · rw [heq]
      refine List.forall_mem_cons.mpr
        ⟨.inr (.inr ⟨ht, hnil, w.names.length, rfl, List.getElem?_concat_length⟩), fun p hp => ?_⟩
      refine (hbelongs p hp).names_append (fun a n hn => ?_) rfl
      have hlt := (List.getElem?_eq_some_iff.mp hn).1
      exact (List.getElem?_append_left hlt).trans hn
  | release a =>
    obtain rfl := Option.some.inj hstep
    exact hbelongs
  | collect a =>
    by_cases ha : a ∈ w.reached
    · rw [step, if_pos ha] at hstep
      cases hstep
    · rw [step, if_neg ha] at hstep
      obtain rfl := Option.some.inj hstep
      exact hbelongs

/-- After a clash two results for different strings are one object. -/
theorem Kept.clash (h : Kept hash w) (hclash : w.Clashes hash s)
    (hstep : w.step hash (.intern s) = some w') : ¬ w'.OneIdentity := by
  obtain ⟨ht, hnil, a, ha, hne⟩ := hclash
  have heq : w.intern hash s = (.symbol a, w) := by
    rw [intern, if_neg ht, if_neg hnil, ha]
  obtain ⟨name, hname, -⟩ := h.entries _ _ ha
  rw [step_intern hstep, heq]
  intro hone
  have hsame := hone (s, .symbol a) List.mem_cons_self (name, .symbol a)
    (List.mem_cons_of_mem _ (h.named a name hname)) List.mem_cons_self List.mem_cons_self
  exact hne (hname.trans (congrArg some (hsame.mp rfl).symm))

theorem always_oneIdentity_from (h : Kept hash w) (hbelongs : ∀ p ∈ w.results, w.Belongs p)
    (es : List SymbolEvent) : Always hash OneIdentity w es ↔ NeverClashes hash w es := by
  induction es generalizing w with
  | nil => exact iff_of_true (h.oneIdentity hbelongs) trivial
  | cons e es ih =>
    constructor
    · rintro ⟨-, hrest⟩
      have hclash : ∀ s, e = .intern s → ¬ w.Clashes hash s := by
        rintro s rfl hclash
        obtain ⟨w', hstep⟩ : ∃ w', w.step hash (.intern s) = some w' := ⟨_, rfl⟩
        have hnext := hrest w' hstep
        have hone : w'.OneIdentity := by
          cases es with
          | nil => exact hnext
          | cons d ds => exact hnext.1
        exact h.clash hclash hstep hone
      exact ⟨hclash, fun w' hstep =>
        (ih (h.step hstep) (belongs_step hbelongs hclash hstep)).mp (hrest w' hstep)⟩
    · rintro ⟨hclash, hrest⟩
      exact ⟨h.oneIdentity hbelongs, fun w' hstep =>
        (ih (h.step hstep) (belongs_step hbelongs hclash hstep)).mpr (hrest w' hstep)⟩

/-- In any run, results of `intern` that can be reached are one object just where the
strings were equal, if and only if no call meets a symbol of another name under
the hash of its string. -/
theorem always_oneIdentity_iff (hash : JavaString → UInt64) (es : List SymbolEvent) :
    Always hash OneIdentity init es ↔ NeverClashes hash init es :=
  always_oneIdentity_from kept_init (fun p hp => by cases hp) es

/-- Two names with one hash, interned one after the other. -/
theorem clashes_second {s' : JavaString} (hhash : hash s = hash s') (hne : s ≠ s')
    (ht : s ≠ units "t") (hnil : s ≠ units "nil") (ht' : s' ≠ units "t") (hnil' : s' ≠ units "nil") :
    ¬ NeverClashes hash init [.intern s, .intern s'] := by
  intro hnever
  obtain ⟨w', hstep⟩ : ∃ w', init.step hash (.intern s) = some w' := ⟨_, rfl⟩
  have hfirst : init.intern hash s = (.symbol 0,
      { init with names := [s], symtable := Function.update init.symtable (hash s) (some (some 0)) }) := by
    rw [intern, if_neg ht, if_neg hnil]
    rfl
  have hw' := step_intern hstep
  rw [hfirst] at hw'
  have hnames : w'.names = [s] := by
    rw [hw']
    rfl
  have hentry : w'.symtable (hash s') = some (some 0) := by
    rw [hw', ← hhash]
    exact Function.update_self _ _ _
  refine (hnever.2 w' hstep).1 s' rfl ⟨ht', hnil', 0, hentry, ?_⟩
  rw [hnames]
  simpa using hne

/-- Two names with one hash. -/
theorem hash_collision : MurmurHash.hash (units "a-variable-namedpwsvekc96scral4o") =
    MurmurHash.hash (units "another-variablelqpk9ny34qlree11") := by decide +kernel

theorem not_oneIdentity : ¬ Always MurmurHash.hash OneIdentity init
    [.intern (units "a-variable-namedpwsvekc96scral4o"),
      .intern (units "another-variablelqpk9ny34qlree11")] := by
  intro halways
  rw [always_oneIdentity_from kept_init (fun p hp => by cases hp)] at halways
  exact clashes_second hash_collision (by decide) (by decide) (by decide) (by decide) (by decide) halways

end Runs

end Symtable

end Arcueid.Neko
