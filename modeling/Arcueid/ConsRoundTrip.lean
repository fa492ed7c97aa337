import Arcueid.ConsWrite
import Arcueid.SymbolRead

/-! Reading back what is written for a structure of conses. -/

namespace Arcueid

open Numeral Outcome Reader Utf

variable {F : Type} {flo : Flonums F}

/-- The symbols in it are read back alone, and none of them is the dot. -/
def Readable (flo : Flonums F) : Datum F → Prop
  | .nil => True
  | .number (.fixnum n) => -fixnumMax ≤ n ∧ n ≤ fixnumMax
  | .symbol name => ReadsBack flo name ∧ name ≠ runes "."
  | .cons s t => Readable flo s ∧ Readable flo t
  | _ => False

def Datum.isCons : Datum F → Bool
  | .cons _ _ => true
  | _ => false

/-- What a token is read as. -/
def readToken (flo : Flonums F) (name : List Nat) : Option (Datum F) :=
  match string2num flo name with
  | .error _ => none
  | .ok (some num) => some (.number num)
  | .ok none => some (intern name)

theorem symRune_digit {d : Nat} (h : d < 10) :
    SymRune (d + '0'.toNat) ∧ d + '0'.toNat ∉ runes "`,\"#" ∧ d + '0'.toNat ≠ '.'.toNat ∧
      d + '0'.toNat ≠ 'r'.toNat := by
  interval_cases d <;> exact ⟨⟨by decide, by decide⟩, by decide, by decide, by decide⟩

theorem atomToken_decimal (n : Nat) (pre : List Nat) (hpre : pre = [] ∨ pre = ['-'.toNat]) :
    AtomToken (pre ++ decimal n) ∧ pre ++ decimal n ≠ runes "." := by
  obtain ⟨d, ds, htext, hlt, -⟩ := decimal_eq n
  obtain ⟨hd, hopen, hdot, hr⟩ := symRune_digit (hlt d (by simp))
  have hminus : SymRune '-'.toNat := ⟨by decide, by decide⟩
  have hvalid : ∀ c ∈ (d :: ds).map (· + '0'.toNat), SymRune c := by
    intro c hc
    obtain ⟨x, hx, rfl⟩ := List.mem_map.mp hc
    exact (symRune_digit (hlt x hx)).1
  rw [htext]
  rcases hpre with rfl | rfl
  · refine ⟨⟨⟨by simp, hvalid, fun u hu => hr (List.cons.inj hu).1⟩, ?_⟩,
      fun hu => hdot (List.cons.inj hu).1⟩
    rintro c ⟨⟩
    exact hopen
  · refine ⟨⟨⟨by simp, ?_, fun u hu => absurd (List.cons.inj hu).1 (by decide)⟩, ?_⟩,
      fun hu => absurd (List.cons.inj hu).1 (by decide)⟩
    · intro c hc
      rcases List.mem_cons.mp hc with rfl | hc
      · exact hminus
      · exact hvalid c hc
    · rintro c ⟨⟩
      decide

theorem atomToken_fixnumText (n : Int) :
    AtomToken (fixnumText n) ∧ fixnumText n ≠ runes "." := by
  rw [fixnumText]
  split_ifs
  · exact atomToken_decimal _ ['-'.toNat] (.inr rfl)
  · exact atomToken_decimal _ [] (.inl rfl)

/-- The text of an atom is one token, which stands for it. -/
theorem Readable.atom {d : Datum F} (h : Readable flo d) (hd : d.isCons = false) :
    AtomToken (atomText d) ∧ atomText d ≠ runes "." ∧ readToken flo (atomText d) = some d := by
  cases d with
  | nil =>
    have htoken : AtomToken (runes "nil") :=
      ⟨⟨by decide, by decide, fun u hu => absurd (List.cons.inj hu).1 (by decide)⟩, by decide⟩
    exact ⟨htoken, show runes "nil" ≠ runes "." by decide, rfl⟩
  | number num =>
    cases num with
    | fixnum n =>
      obtain ⟨htoken, hdot⟩ := atomToken_fixnumText n
      exact ⟨htoken, hdot, by rw [readToken, atomText, string2num_fixnumText h]⟩
    | bignum n => exact h.elim
    | rational q => exact h.elim
    | flonum f => exact h.elim
  | symbol name =>
    obtain ⟨hback, hdot⟩ := h
    obtain ⟨htoken, hnum, hnil⟩ := hback.token hdot
    exact ⟨htoken, hdot, by rw [readToken, atomText, hnum]; simp [intern, hnil]⟩
  | string s => exact h.elim
  | char r => exact h.elim
  | regexp rx casefold multiline => exact h.elim
  | cons s t => cases hd

theorem text_atom {d : Datum F} (hd : d.isCons = false) : text d = atomText d := by
  cases d with
  | cons s t => cases hd
  | _ =>
    rw [text]
    simp

section Reading

variable {e : ReadEnv F} {eof : Datum F} {p : Port} {cs : List Nat} {n : Nat}

/-- A token in front of a delimiter is read as what it stands for. -/
theorem sread_token (eof : Datum F) (ws : List Nat) {name : List Nat} {d : Datum F} (h : AtomToken name) (hdot : name ≠ runes ".")
    (hread : readToken e.flo name = some d) (hp : At p (ws ++ name ++ cs)) (hcs : Delimited cs)
    (hws : ∀ w ∈ ws, ucisspace w = true) (hn : ws.length + name.length < n) :
    ∃ p', sread e (n + 1) eof p = .ok (d, p') ∧ At p' cs := by
  obtain ⟨c, rest, rfl⟩ := List.exists_cons_of_ne_nil h.ne_nil
  have hc := h.valid c (by simp)
  have hp' : At p (ws ++ c :: (rest ++ cs)) := by simpa using hp
  obtain ⟨p', hp'', hsym⟩ := readSymbol_text e.flo h.toTextToken (.pushed c (rest ++ cs)) hcs
    (show (c :: rest).length < n by omega) hdot
  refine ⟨p', ?_, hp''⟩
  rw [sread_atom ws hp' hws (by omega) hc (h.first c rfl), hsym]
  rw [readToken] at hread
  cases hnum : string2num e.flo (c :: rest) with
  | error msg => simp [hnum] at hread
  | ok num =>
    rw [hnum] at hread
    cases num with
    | some num =>
      cases hread
      rfl
    | none =>
      cases hread
      rfl

theorem sread_dot (e : ReadEnv F) (eof : Datum F) (hp : At p ('.'.toNat :: cs)) (hcs : Delimited cs) :
    ∃ p', sread e (n + 3) eof p = .ok (sDot, p') ∧ At p' cs := by
  obtain ⟨p', hp', hsym⟩ := readSymbol_dot (n := n) e.flo (.pushed '.'.toNat cs) hcs
  refine ⟨p', ?_, hp'⟩
  have hdot : SymRune '.'.toNat := ⟨by decide, by decide⟩
  rw [sread_atom [] hp (by simp) (show 0 < n + 2 by omega) hdot (by decide), hsym]

theorem Readable.text_cons {t : Datum F} (h : Readable flo t) :
    ∃ c rest, text t = c :: rest ∧ ucisspace c = false ∧ c ≠ ';'.toNat ∧ c ≠ ')'.toNat := by
  by_cases ht : t.isCons = true
  · cases t with
    | cons s t => exact ⟨'('.toNat, _, by rw [text]; rfl, rfl, by decide, by decide⟩
    | _ => cases ht
  · have hatom : t.isCons = false := by simpa using ht
    obtain ⟨htoken, -, -⟩ := h.atom hatom
    obtain ⟨c, rest, hc⟩ := List.exists_cons_of_ne_nil htoken.ne_nil
    have hsym := htoken.valid c (by simp [hc])
    exact ⟨c, rest, by rw [text_atom hatom, hc], hsym.not_space, hsym.ne rfl, hsym.ne rfl⟩

theorem delimited_loopText (t : Datum F) (cs : List Nat) :
    Delimited (loopText t ++ ')'.toNat :: cs) := by
  cases t <;> rw [loopText] <;> first
    | (intro c hc; cases hc; rfl)
    | simp

/-- One round of `read_list`: the element in front is added to the list. -/
theorem readList_elem (ws : List Nat) (top : List (Datum F)) {s : Datum F} (hs : Readable flo s)
    (hread : ∀ p, At p (text s ++ cs) → ∃ p', sread e n eof p = .ok (s, p') ∧ At p' cs)
    (hp : At p (ws ++ text s ++ cs)) (hws : ∀ w ∈ ws, ucisspace w = true) (hn : ws.length < n) :
    ∃ p', At p' cs ∧ readList e (n + 1) eof top none p = readList e n eof (top ++ [s]) none p' := by
  obtain ⟨c, rest, htext, hc, hsemi, hclose⟩ := hs.text_cons
  have hp' : At p (ws ++ c :: (rest ++ cs)) := by simpa [htext] using hp
  obtain ⟨p', hsread, hp''⟩ := hread (arcUngetcRune c (instring (rest ++ cs))) (by
    rw [htext]
    exact .pushed c (rest ++ cs))
  refine ⟨p', hp'', ?_⟩
  rw [readList, bind_of_ok (scan_blanks hp' hws hc hn)]
  simp only [hsemi, hclose, if_false, Option.isSome_none, Bool.false_eq_true]
  rw [bind_of_ok ungetc_instring, bind_of_ok hsread]
  cases s with
  | symbol name => simp only [hs.2, if_false]
  | _ => rfl

theorem readList_close {top : List (Datum F)} {dotted : Option (Datum F)}
    (hp : At p (')'.toNat :: cs)) :
    readList e (n + 2) eof top dotted p = .ok (Reader.list top (dotted.getD .nil), instring cs) := by
  rw [readList, bind_of_ok (scan_cons hp rfl)]
  rfl

theorem readList_dotted {d : Datum F} {top : List (Datum F)} (hd : Readable e.flo d)
    (hatom : d.isCons = false) (htop : top ≠ [])
    (hp : At p (' '.toNat :: runes " . " ++ atomText d ++ ')'.toNat :: cs))
    (hn : (atomText d).length + 4 < n) :
    readList e (n + 1) eof top none p = .ok (Reader.list top d, instring cs) := by
  obtain ⟨htoken, hdot, hread⟩ := hd.atom hatom
  obtain ⟨n, rfl⟩ := Nat.exists_eq_add_of_le' (show 3 ≤ n by omega)
  have hblank : ∀ w ∈ [' '.toNat, ' '.toNat], ucisspace w = true := by decide
  have hp' : At p ([' '.toNat, ' '.toNat] ++ '.'.toNat ::
      ([' '.toNat] ++ atomText d ++ ')'.toNat :: cs)) := by
    simpa [runes] using hp
  have hspace : Delimited ([' '.toNat] ++ atomText d ++ ')'.toNat :: cs) := by
    rintro c ⟨⟩
    rfl
  have hclose : Delimited (')'.toNat :: cs) := by
    rintro c ⟨⟩
    rfl
  obtain ⟨p₁, hsdot, hp₁⟩ := sread_dot (n := n) e eof
    (.pushed '.'.toNat ([' '.toNat] ++ atomText d ++ ')'.toNat :: cs)) hspace
  obtain ⟨p₂, htail, hp₂⟩ := sread_token (n := n + 2) eof [' '.toNat] htoken hdot hread hp₁ hclose
    (by decide) (by simp; omega)
  rw [readList, bind_of_ok (scan_blanks hp' hblank rfl (by simp))]
  have hsemi : '.'.toNat ≠ ';'.toNat := by decide
  have hparen : '.'.toNat ≠ ')'.toNat := by decide
  simp only [hsemi, hparen, if_false, Option.isSome_none, Bool.false_eq_true]
  rw [bind_of_ok ungetc_instring, bind_of_ok hsdot]
  simp only [sDot, if_true]
  rw [bind_of_ok htail]
  simp only [htop, if_false]
  exact readList_close hp₂

variable (eof) in
/-- The text of a value is read as the value, and that of a list after its
first element as what follows the elements read so far. -/
theorem sread_text {t : Datum F} (ht : Readable e.flo t) :
    (∃ N, ∀ n ≥ N, ∀ p cs, At p (text t ++ cs) → t.isCons = true ∨ Delimited cs →
      ∃ p', sread e n eof p = .ok (t, p') ∧ At p' cs) ∧
    ∃ N, ∀ n ≥ N, ∀ p cs, ∀ top ≠ [], At p (loopText t ++ ')'.toNat :: cs) →
      readList e n eof top none p = .ok (Reader.list top t, instring cs) := by
  have hatom : ∀ t : Datum F, t.isCons = false → Readable e.flo t →
      ∃ N, ∀ n ≥ N, ∀ p cs, At p (text t ++ cs) → t.isCons = true ∨ Delimited cs →
        ∃ p', sread e n eof p = .ok (t, p') ∧ At p' cs := by
    intro t hcons ht
    obtain ⟨htoken, hdot, hread⟩ := ht.atom hcons
    refine ⟨(text t).length + 2, fun n hn p cs hp hcs => ?_⟩
    obtain ⟨n, rfl⟩ := Nat.exists_eq_add_of_le' (show 1 ≤ n by omega)
    rw [text_atom hcons] at hp hn
    exact sread_token eof [] htoken hdot hread hp (hcs.resolve_left (by simp [hcons])) (by simp)
      (by simp; omega)
  have hdotted : ∀ t : Datum F, t.isCons = false → Readable e.flo t →
      loopText t = ' '.toNat :: runes " . " ++ atomText t →
      ∃ N, ∀ n ≥ N, ∀ p cs, ∀ top ≠ [], At p (loopText t ++ ')'.toNat :: cs) →
        readList e n eof top none p = .ok (Reader.list top t, instring cs) := by
    intro t hcons ht hloop
    refine ⟨(atomText t).length + 6, fun n hn p cs top htop hp => ?_⟩
    obtain ⟨n, rfl⟩ := Nat.exists_eq_add_of_le' (show 1 ≤ n by omega)
    rw [hloop] at hp
    exact readList_dotted ht hcons htop hp (by omega)
  induction t with
  | nil =>
    refine ⟨hatom _ rfl ht, 2, fun n hn p cs top _ hp => ?_⟩
    obtain ⟨n, rfl⟩ := Nat.exists_eq_add_of_le' hn
    exact readList_close hp
  | number num =>
    cases num with
    | fixnum n => exact ⟨hatom _ rfl ht, hdotted _ rfl ht rfl⟩
    | _ => exact ht.elim
  | symbol name => exact ⟨hatom _ rfl ht, hdotted _ rfl ht rfl⟩
  | cons s u ihs ihu =>
    obtain ⟨hs, hu⟩ := ht
    obtain ⟨⟨Ns, hS⟩, -⟩ := ihs hs
    obtain ⟨-, Nu, hU⟩ := ihu hu
    constructor
    · refine ⟨max Ns Nu + 3, fun n hn p cs hp _ => ?_⟩
      obtain ⟨n, rfl⟩ := Nat.exists_eq_add_of_le' (show 3 ≤ n by omega)
      have hp' : At p ('('.toNat :: (text s ++ (loopText u ++ ')'.toNat :: cs))) := by
        simpa [text] using hp
      refine ⟨instring cs, ?_, .clean cs⟩
      obtain ⟨p₁, hp₁, hlist⟩ := readList_elem (n := n + 1) [] [] hs
        (fun p hp => hS (n + 1) (by omega) p _ hp (.inr (delimited_loopText u cs)))
        (.clean (text s ++ (loopText u ++ ')'.toNat :: cs))) (by simp) (by simp)
      rw [sread, bind_of_ok (scan_cons hp' rfl)]
      change readList e (n + 2) eof [] none _ = _
      rw [hlist, hU (n + 1) (by omega) p₁ cs _ (by simp) hp₁]
      rfl
    · refine ⟨max Ns Nu + 3, fun n hn p cs top htop hp => ?_⟩
      obtain ⟨n, rfl⟩ := Nat.exists_eq_add_of_le' (show 3 ≤ n by omega)
      have hp' : At p ([' '.toNat] ++ text s ++ (loopText u ++ ')'.toNat :: cs)) := by
        simpa [loopText] using hp
      obtain ⟨p₁, hp₁, hlist⟩ := readList_elem (n := n + 2) [' '.toNat] top hs
        (fun p hp => hS (n + 2) (by omega) p _ hp (.inr (delimited_loopText u cs)))
        hp' (by decide) (by simp)
      rw [hlist, hU (n + 2) (by omega) p₁ cs _ (by simp) hp₁]
      simp [Reader.list]
  | _ => exact ht.elim

end Reading

theorem readable_of_denotes {h : ConsHeap} {v : PVal} {t : Datum F} (ht : h.Denotes v t)
    (hsym : ∀ name, Relation.ReflTransGen h.Child (.symbol name) v →
      ReadsBack flo name ∧ name ≠ runes ".") : Readable flo t := by
  induction ht with
  | nil => trivial
  | fixnum n => exact n.2
  | symbol name => exact hsym name .refl
  | @cons a x y s u hcell _ _ ihx ihy =>
    refine ⟨ihx fun name hname => hsym name ?_, ihy fun name hname => hsym name ?_⟩
    · exact hname.tail ⟨a, x, y, rfl, hcell, .inl rfl⟩
    · exact hname.tail ⟨a, x, y, rfl, hcell, .inr rfl⟩

/-- A value that is no part of itself is written to a text that is read back
as the same structure, to its last rune. -/
theorem write_sread (flo : Flonums F) (h : ConsHeap) (v : PVal) (hv : h.Valid v)
    (hac : h.Acyclic v) (hsym : ∀ name, Relation.ReflTransGen h.Child (.symbol name) v →
      ReadsBack flo name ∧ name ≠ runes ".") :
    ∃ t : Datum F, h.Denotes v t ∧ ∃ txt N, ∀ n ≥ N, h.arcWrite n v = .ok txt ∧
      sread ⟨flo, none⟩ n .nil (instring txt) = .ok (t, instring []) := by
  obtain ⟨t, ht⟩ := ConsHeap.exists_denotes (F := F) hv hac
  have hread : Readable flo t := readable_of_denotes ht hsym
  obtain ⟨⟨Nw, hw⟩, -⟩ := ConsHeap.dispWrite_denotes ht
  obtain ⟨⟨Nr, hr⟩, -⟩ := sread_text .nil (e := ⟨flo, none⟩) hread
  refine ⟨t, ht, text t, max Nw Nr, fun n hn => ⟨hw n (by omega) [] (by simp [ConsHeap.Below]), ?_⟩⟩
  obtain ⟨p', hsread, hp'⟩ := hr n (by omega) (instring (text t)) [] (by simpa using .clean (text t))
    (.inr nofun)
  cases hp' with
  | clean => exact hsread

/-- `((1) (1) 1 . a)`, where the two lists `(1)` are one cell. -/
def sharedHeap : ConsHeap where
  cells := [(.fixnum ⟨1, by decide⟩, .nil), (.fixnum ⟨1, by decide⟩, .symbol (runes "a")),
    (.cons 0, .cons 1), (.cons 0, .cons 2)]
  closed := by
    rintro (_ | _ | _ | _ | a) x y b hcell hb <;> cases hcell <;>
      rcases hb with hb | hb <;> cases hb <;> decide

theorem sharedHeap_acyclic : sharedHeap.Acyclic (.cons 3) := by
  refine ConsHeap.acyclic_of_backward ?_ _
  rintro (_ | _ | _ | _ | a) x y b hcell hb <;> cases hcell <;>
    rcases hb with hb | hb <;> cases hb <;> decide

theorem sharedHeap_symbol {u : PVal} {name : List Nat}
    (h : sharedHeap.Child (.symbol name) u) : name = runes "a" := by
  obtain ⟨a, x, y, rfl, hcell, hw⟩ := h
  rcases a with _ | _ | _ | _ | a <;> cases hcell <;> rcases hw with hw | hw <;> cases hw
  rfl

theorem sharedHeap_write_sread :
    ∃ t : Datum Unit, sharedHeap.Denotes (.cons 3) t ∧ ∃ txt N, ∀ n ≥ N,
      sharedHeap.arcWrite n (.cons 3) = .ok txt ∧
        sread ⟨⟨fun _ => none, fun _ => (), ()⟩, none⟩ n .nil (instring txt) = .ok (t, instring []) :=
  write_sread _ sharedHeap (.cons 3) (by rintro a ⟨⟩; decide) sharedHeap_acyclic fun name h => by
    obtain rfl : name = runes "a" := by
      rcases h.cases_head with he | ⟨u, hu, -⟩
      · cases he
      · exact sharedHeap_symbol hu
    exact ⟨⟨5, instring [], rfl⟩, by decide⟩

end Arcueid
