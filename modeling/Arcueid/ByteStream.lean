import Mathlib.Data.List.Basic
import Arcueid.Io

/-! Characters written to a byte port and read back from it. -/

namespace Arcueid

open Utf StreamCodec

/-- The contents of a byte port. -/
def contents (bs : List Byte) : List Int := bs.map fun b => (b.toNat : Int)

@[simp] theorem contents_nil : contents [] = [] := rfl

@[simp] theorem contents_cons (b : Byte) (bs : List Byte) :
    contents (b :: bs) = (b.toNat : Int) :: contents bs := rfl

@[simp] theorem contents_append (bs cs : List Byte) :
    contents (bs ++ cs) = contents bs ++ contents cs := List.map_append

@[simp] theorem length_contents (bs : List Byte) : (contents bs).length = bs.length :=
  List.length_map _

/-- The byte ports: files and sockets. -/
inductive ByteDevice where
  | file
  | socket

def ByteDevice.port : ByteDevice → Bool → List Byte → Port
  | .file, outport, bs => mkfio outport (contents bs)
  | .socket, outport, bs => mksocket outport (contents bs)

/-- Writes the characters in turn: the bytes that each `arc_writec` produced,
and the port at the end. -/
def writeAll : List Nat → Port → Except String (List (List Int) × Port)
  | [], p => pure ([], p)
  | chr :: chrs, p => do
    let (_, p') ← arcWritec p chr
    let (ws, p'') ← writeAll chrs p'
    pure (p'.data.drop p.data.length :: ws, p'')

/-- Reads until end of file, `n` calls of `arc_readc` at most: the characters,
each with the bytes it consumed. -/
def readAll : Nat → Port → Option (List (Nat × List Int))
  | 0, _ => none
  | n + 1, p =>
    match arcReadc p with
    | .error _ => none
    | .ok (none, _) => some []
    | .ok (some chr, p') =>
      (readAll n p').map ((chr, p.data.take (p.data.length - p'.data.length)) :: ·)

/-- Written to `d` and read from `d'`, the characters come back, and each read
consumes the bytes of the write. -/
def RoundTrips (d d' : ByteDevice) (chrs : List Char) : Prop :=
  ∃ ws p, writeAll (chrs.map Char.toNat) (d.port true []) = .ok (ws, p) ∧
    ∃ bs, p.data = contents bs ∧
      ∃ n, readAll n (d'.port false bs) = some ((chrs.map Char.toNat).zip ws)

theorem ofInt_signed (b : Byte) : BitVec.ofInt 8 (BitVec.ofInt 8 b.toNat).toInt = b := by
  rw [BitVec.ofInt_toInt, BitVec.ofInt_natCast, BitVec.ofNat_toNat, BitVec.setWidth_eq]

theorem toInt_emod (b : Byte) : b.toInt % 256 = b.toNat := by
  rw [BitVec.toInt_eq_toNat_bmod]
  have h := b.isLt
  simp only [Nat.reducePow] at h
  rw [Int.bmod_def]
  split <;> omega

variable {d d' : ByteDevice} {n : Nat}

theorem arcWriteb_port (bs : List Byte) (b : Byte) :
    Prod.snd <$> arcWriteb (d.port true bs) b.toInt = .ok (d.port true (bs ++ [b])) := by
  cases d with
  | file =>
    change Except.ok { mkfio true (contents bs) with data := contents bs ++ [b.toInt % 256] } = _
    rw [toInt_emod]
    simp [ByteDevice.port, mkfio]
  | socket =>
    change Except.ok { mksocket true (contents bs) with data := contents bs ++ [b.toInt % 256] } = _
    rw [toInt_emod]
    simp [ByteDevice.port, mksocket]

theorem foldlM_arcWriteb (bs ws : List Byte) :
    ws.foldlM (fun p (b : Byte) => Prod.snd <$> arcWriteb p b.toInt) (d.port true bs) =
      .ok (d.port true (bs ++ ws)) := by
  induction ws generalizing bs with
  | nil => simp [pure, Except.pure]
  | cons w ws ih =>
    rw [List.foldlM_cons, arcWriteb_port]
    simpa [bind, Except.bind] using ih (bs ++ [w])

theorem arcWritec_port (bs : List Byte) (chr : Nat) :
    arcWritec (d.port true bs) chr = .ok (chr, d.port true (bs ++ runetochar chr)) := by
  have h : arcWritec (d.port true bs) chr =
      ((runetochar chr).foldlM (fun p (b : Byte) => Prod.snd <$> arcWriteb p b.toInt)
        (d.port true bs) >>= fun p => pure (chr, p)) := by
    cases d <;> rfl
  rw [h, foldlM_arcWriteb]
  rfl

@[simp] theorem port_data (outport : Bool) (bs : List Byte) :
    (d.port outport bs).data = contents bs := by
  cases d <;> rfl

theorem writeAll_port (chrs : List Nat) (bs : List Byte) :
    writeAll chrs (d.port true bs) =
      .ok (chrs.map (contents ∘ runetochar), d.port true (bs ++ chrs.flatMap runetochar)) := by
  induction chrs generalizing bs with
  | nil => simp [writeAll, pure, Except.pure]
  | cons chr chrs ih =>
    simp [writeAll, arcWritec_port, ih, bind, Except.bind, pure, Except.pure]

theorem arcReadb_port (b : Byte) (bs : List Byte) :
    ∃ x, arcReadb (d.port false (b :: bs)) = .ok (some x, d.port false bs) ∧
      BitVec.ofInt 8 x = b := by
  cases d with
  | file => exact ⟨b.toNat, rfl, by rw [BitVec.ofInt_natCast, BitVec.ofNat_toNat, BitVec.setWidth_eq]⟩
  | socket => exact ⟨_, rfl, ofInt_signed b⟩

theorem arcReadb_port_nil :
    arcReadb (d.port false []) = .ok (none, d.port false []) := by
  cases d <;> rfl

/-- The loop of `arc_readc` reads what `fullrune` takes for a whole rune. -/
theorem readcLoop_port (cbuf bs : List Byte) :
    match pull fullrune n cbuf bs with
    | some (w, rest) =>
      readcLoop n cbuf (d.port false bs) = .ok (some (chartorune w).1, d.port false rest)
    | none => ∃ rest, readcLoop n cbuf (d.port false bs) = .ok (none, d.port false rest) := by
  induction n generalizing cbuf bs with
  | zero => exact ⟨bs, rfl⟩
  | succ n ih =>
    cases bs with
    | nil =>
      refine ⟨[], ?_⟩
      simp [readcLoop, arcReadb_port_nil, bind, Except.bind, pure, Except.pure]
    | cons b bs =>
      obtain ⟨x, hread, hx⟩ := arcReadb_port (d := d) b bs
      simp only [pull, readcLoop, hread, bind, Except.bind, hx]
      by_cases hfull : fullrune (cbuf ++ [b]) = true
      · simp [hfull, pure, Except.pure]
      · simpa [hfull] using ih (cbuf ++ [b]) bs

theorem arcReadc_port (bs : List Byte) :
    arcReadc (d.port false bs) = readcLoop UTFmax [] (d.port false bs) := by
  cases d <;> rfl

theorem arcReadc_runetochar {chr : Nat} (h : chr < Rune3) (hs : ¬ (0xd800 ≤ chr ∧ chr ≤ 0xdfff))
    (bs : List Byte) :
    arcReadc (d.port false (runetochar chr ++ bs)) = .ok (some chr, d.port false bs) := by
  have hloop := readcLoop_port (d := d) (n := UTFmax) [] (runetochar chr ++ bs)
  rw [pull_runetochar h] at hloop
  rw [arcReadc_port, hloop, chartorune_runetochar h hs]

theorem arcReadc_consumed_le {chr : Nat} {bs : List Byte} {p : Port}
    (h : arcReadc (d.port false bs) = .ok (some chr, p)) : bs.length - p.data.length ≤ 3 := by
  have hloop := readcLoop_port (d := d) (n := UTFmax) [] bs
  rw [arcReadc_port] at h
  split at hloop
  · next w rest hpull =>
    have hle := pull_fullrune_length_le hpull
    have happ := congrArg List.length (pull_append hpull)
    rw [h] at hloop
    simp only [Except.ok.injEq, Prod.mk.injEq] at hloop
    simp only [hloop.2, port_data, length_contents, List.nil_append, List.length_append] at happ ⊢
    omega
  · obtain ⟨rest, hrest⟩ := hloop
    rw [h] at hrest
    simp at hrest

theorem readAll_runetochar {chr : Nat} (h : chr < Rune3) (hs : ¬ (0xd800 ≤ chr ∧ chr ≤ 0xdfff))
    (bs : List Byte) :
    readAll (n + 1) (d.port false (runetochar chr ++ bs)) =
      (readAll n (d.port false bs)).map ((chr, contents (runetochar chr)) :: ·) := by
  simp [readAll, arcReadc_runetochar h hs]

theorem readAll_four {chr : Nat} {bs : List Byte} {l : List (Nat × List Int)}
    (h3 : Rune3 ≤ chr) (h4 : chr < Rune4) :
    readAll n (d.port false (runetochar chr ++ bs)) ≠
      some ((chr, contents (runetochar chr)) :: l) := by
  intro h
  cases n with
  | zero => simp [readAll] at h
  | succ n =>
    have hlen := length_runetochar_four h3 h4
    simp only [readAll] at h
    split at h
    · simp at h
    · simp at h
    · next chr' p' hread =>
      have hle := arcReadc_consumed_le hread
      simp only [Option.map_eq_some_iff, List.cons.injEq, Prod.mk.injEq] at h
      obtain ⟨_, -, ⟨-, hw⟩, -⟩ := h
      have hwlen := congrArg List.length hw
      simp only [port_data, length_contents, List.length_take, List.length_append, hlen] at hwlen hle
      omega

/-- Reading gives the characters back exactly when each is below `Rune3`. -/
theorem readAll_flatMap_iff (chrs : List Char) :
    (∃ n, readAll n (d.port false ((chrs.map Char.toNat).flatMap runetochar)) =
      some ((chrs.map Char.toNat).map fun chr => (chr, contents (runetochar chr)))) ↔
      ∀ chr ∈ chrs, chr.toNat < Rune3 := by
  induction chrs with
  | nil =>
    refine ⟨fun _ => by simp, fun _ => ⟨1, ?_⟩⟩
    cases d <;> rfl
  | cons chr chrs ih =>
    have hvalid : ¬ (0xd800 ≤ chr.toNat ∧ chr.toNat ≤ 0xdfff) ∧ chr.toNat < Rune4 := by
      have hv := chr.valid
      simp only [UInt32.isValidChar, Nat.isValidChar] at hv
      change _ ∧ chr.toNat < 0x1FFFFF
      have hto : chr.val.toNat = chr.toNat := rfl
      omega
    simp only [List.map_cons, List.flatMap_cons, List.forall_mem_cons]
    by_cases h : chr.toNat < Rune3
    · simp only [h, true_and]
      rw [← ih]
      constructor
      · rintro ⟨n, hn⟩
        cases n with
        | zero => simp [readAll] at hn
        | succ n =>
          rw [readAll_runetochar h hvalid.1] at hn
          exact ⟨n, by simpa [Option.map_eq_some_iff] using hn⟩
      · rintro ⟨n, hn⟩
        exact ⟨n + 1, by rw [readAll_runetochar h hvalid.1, hn]; rfl⟩
    · simp only [h, false_and, iff_false]
      rintro ⟨n, hn⟩
      exact readAll_four (by omega) hvalid.2 hn

theorem contents_injective : Function.Injective contents :=
  List.map_injective_iff.mpr fun _ _ h => BitVec.eq_of_toNat_eq (Int.ofNat.inj h)

theorem zip_contents (chrs : List Nat) :
    chrs.zip (chrs.map (contents ∘ runetochar)) =
      chrs.map fun chr => (chr, contents (runetochar chr)) := by
  induction chrs with
  | nil => rfl
  | cons chr chrs ih => simp [ih]

theorem roundTrips_iff_readAll (chrs : List Char) :
    RoundTrips d d' chrs ↔
      ∃ n, readAll n (d'.port false ((chrs.map Char.toNat).flatMap runetochar)) =
        some ((chrs.map Char.toNat).map fun chr => (chr, contents (runetochar chr))) := by
  simp only [RoundTrips, writeAll_port, List.nil_append, Except.ok.injEq, Prod.mk.injEq]
  constructor
  · rintro ⟨ws, p, ⟨rfl, rfl⟩, bs, hbs, n, hn⟩
    rw [port_data] at hbs
    rw [← contents_injective hbs, zip_contents] at hn
    exact ⟨n, hn⟩
  · rintro ⟨n, hn⟩
    exact ⟨_, _, ⟨rfl, rfl⟩, _, port_data _ _, n, by rw [zip_contents]; exact hn⟩

/-- Characters survive a byte port exactly when all are below U+FFFF. -/
theorem roundTrips_iff (d d' : ByteDevice) (chrs : List Char) :
    RoundTrips d d' chrs ↔ ∀ chr ∈ chrs, chr.toNat < 0xFFFF := by
  rw [roundTrips_iff_readAll, readAll_flatMap_iff]
  rfl

/-- A file gives U+1F600 back as U+0080, and a byte is left over. -/
theorem astral_not_roundTrips : ¬ RoundTrips .file .file [Char.ofNat 0x1F600] := by
  rw [roundTrips_iff_readAll]
  rintro ⟨n, hn⟩
  exact readAll_four (show Rune3 ≤ 0x1F600 by decide) (show 0x1F600 < Rune4 by decide) hn

end Arcueid
