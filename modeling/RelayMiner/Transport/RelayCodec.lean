import RelayMiner.Lib.Runs
import RelayMiner.Lib.Slices
import RelayMiner.Session.State
/-!
# Relay bytes on the wire

`relay_codec.go`: the publisher compresses a relay when that pays, and the miner
restores its bytes into a buffer that the tree's leaf keeps and writes into, so
what the buffer has behind its bytes matters as well.
-/
open RelayMiner.Lib RelayMiner.Session

namespace RelayMiner.Transport.RelayCodec

open List

/-! ## The wire form -/

/-- `s2`, as far as it is called. A block begins with a header, the length of what it holds. -/
structure S2 where
  estimateBlockSize : Bytes → Int
  encode : Bytes → Bytes
  decodedLen : Bytes → Except String Nat
  decode : Bytes → Except String Bytes
  encode_ne_nil : ∀ raw, encode raw ≠ []
  decode_encode : ∀ raw, decode (encode raw) = .ok raw
  length_decode : ∀ block raw, decode block = .ok raw → decodedLen block = .ok raw.length

def relayCompressionThreshold : Nat := 16 * 2 ^ 10

def maxCompressedRelayBytes : Nat := 64 * 2 ^ 20

def compressionProbeBytes : Nat := 8 * 2 ^ 10

inductive CompressionOutcome where
  | compressed | belowThreshold | overMax | probeIncompressible | notSmaller

def shrinksEnough (compressed original : Int) : Bool := compressed ≤ original - original.tdiv 10

def compressRelayBytes (C : S2) (raw : Bytes) : Option Bytes × CompressionOutcome :=
  if raw.length < relayCompressionThreshold then (none, .belowThreshold)
  else if maxCompressedRelayBytes < raw.length then (none, .overMax)
  else
    let start := (raw.length - compressionProbeBytes) / 2
    let window := (raw.drop start).take compressionProbeBytes
    let est := C.estimateBlockSize window
    if est < 0 ∨ !shrinksEnough est window.length then (none, .probeIncompressible)
    else
      let compressed := C.encode raw
      if !shrinksEnough compressed.length raw.length then (none, .notSmaller) else (some compressed, .compressed)

def wireFields (C : S2) (raw : Bytes) : Bytes × Bytes :=
  match (compressRelayBytes C raw).1 with
  | some compressed => ([], compressed)
  | none => (raw, [])

/-! ## The miner -/

def maxAlloc : Nat := 2 ^ 48

/-- `make` and a copy. A capacity that is too large is a panic, as is one whose sum overflows. -/
def make (h : Heap UInt8) (b : Bytes) (capacity : Nat) : Option (Heap UInt8 × Lib.Slice) :=
  if capacity ≤ maxAlloc then
    some (h ++ [b ++ List.replicate (capacity - b.length) 0], ⟨h.length, b.length⟩)
  else none

/-- A field without bytes is `none`. -/
structure MinedRelayMessage where
  relayBytes : Option Lib.Slice := none
  relayBytesS2 : Option Lib.Slice := none

inductive Sentinel where
  | relayBytesCorrupt
  | s2 (text : String)

structure WrappedError where
  text : String
  wraps : List Sentinel

def corrupt (detail : String) (cause : List Sentinel) : WrappedError :=
  ⟨"relay bytes corrupt: " ++ detail, .relayBytesCorrupt :: cause⟩

/-- `none` is a panic. -/
def originalRelayBytes (C : S2) (h : Heap UInt8) (m : MinedRelayMessage) (spare : Nat) :
    Option (Heap UInt8 × Except WrappedError Lib.Slice) :=
  match m.relayBytes, m.relayBytesS2 with
  | some _, some _ => some (h, .error (corrupt "both relay_bytes and relay_bytes_s2 are set" []))
  | some s, none =>
    if spare ≤ h.spare s then some (h, .ok s)
    else (make h (h.read s) (s.len + spare)).map fun (h, s) => (h, .ok s)
  | none, none => some (h, .error (corrupt "neither relay_bytes nor relay_bytes_s2 is set" []))
  | none, some block =>
    match C.decodedLen (h.read block) with
    | .error err => some (h, .error (corrupt err [.s2 err]))
    | .ok n =>
      if maxCompressedRelayBytes < n then
        some (h, .error (corrupt (s!"decoded length {n} exceeds {maxCompressedRelayBytes}") []))
      else
        -- What is decoded lies in front of the buffer that was made for it.
        match C.decode (h.read block) with
        | .error err => (make h [] (n + spare)).map fun (h, _) => (h, .error (corrupt err [.s2 err]))
        | .ok raw => (make h raw (n + spare)).map fun (h, s) => (h, .ok s)

structure Received where
  plain : Bytes
  block : Bytes
  message : MinedRelayMessage
  restored : List Lib.Slice := []

def Received.slices (x : Received) : List Lib.Slice :=
  x.message.relayBytes.toList ++ x.message.relayBytesS2.toList ++ x.restored

structure Miner where
  heap : Heap UInt8 := []
  received : Nat → Option Received := fun _ => none

/-- `Unmarshal` of one field into a message that has none, with the room that `append` leaves. -/
def unmarshal (h : Heap UInt8) (b : Bytes) (room : Nat) : Heap UInt8 × Option Lib.Slice :=
  if b = [] then (h, none) else (h ++ [b ++ List.replicate room 0], some ⟨h.length, b.length⟩)

inductive Act where
  | unmarshal (i : Nat) (plain block : Bytes) (room roomS2 : Nat)
  | original (i spare : Nat)
  | appendLeaf (i k : Nat) (suffix : Bytes)
  /-- `ReleaseMinedRelayMessage`; what was restored stays in the leaf. -/
  | release (i : Nat)

/-- A message is decoded, its relay restored or put into a leaf, or its buffers go back to their pool. -/
def step (C : S2) (w : Miner) : Act → Miner
  | .unmarshal i plain block room roomS2 =>
    match w.received i with
    | some _ => w
    | none =>
      let p := unmarshal w.heap plain room
      let c := unmarshal p.1 block roomS2
      ⟨c.1, Function.update w.received i (some ⟨plain, block, ⟨p.2, c.2⟩, []⟩)⟩
  | .original i spare =>
    match w.received i with
    | none => w
    | some x =>
      match originalRelayBytes C w.heap x.message spare with
      | some (h, .ok r) => ⟨h, Function.update w.received i (some { x with restored := r :: x.restored })⟩
      | some (h, .error _) => { w with heap := h }
      | none => w
  | .appendLeaf i k suffix =>
    match (w.received i).bind (·.restored[k]?) with
    | some r => { w with heap := w.heap.append r suffix }
    | none => w
  | .release i =>
    { w with
      received := Function.update w.received i
        ((w.received i).map fun x => { x with plain := [], block := [], message := {} }) }

/-! ## What a run keeps -/

def FieldHolds (h : Heap UInt8) : Option Lib.Slice → Bytes → Prop
  | none, b => b = []
  | some s, b => b ≠ [] ∧ ∃ rest, s.Holds h b rest

structure Intact (h : Heap UInt8) (x : Received) : Prop where
  plain : FieldHolds h x.message.relayBytes x.plain
  block : FieldHolds h x.message.relayBytesS2 x.block

def Miner.Has (w : Miner) (i : Nat) (s : Lib.Slice) : Prop := ∃ x, w.received i = some x ∧ s ∈ x.slices

/-- The slices of one array are one slice, of one message: so an append is behind all there is to read. -/
structure Inv (w : Miner) : Prop where
  intact : ∀ i x, w.received i = some x → Intact w.heap x
  old : ∀ i s, w.Has i s → s.array < w.heap.length
  single : ∀ i j r s, w.Has i r → w.Has j s → r.array = s.array → i = j ∧ r = s

section Messages

variable {C : S2} {h : Heap UInt8} {b : Bytes} {f : Option Lib.Slice} {x : Received}

theorem FieldHolds.grow (hf : FieldHolds h f b) (extra : Heap UInt8) : FieldHolds (h ++ extra) f b := by
  cases f with
  | none => exact hf
  | some s =>
    obtain ⟨hb, rest, hs⟩ := hf
    exact ⟨hb, rest, hs.grow extra⟩

theorem FieldHolds.append (hf : FieldHolds h f b) {r : Lib.Slice} (hr : ∀ s ∈ f, r.array = s.array → r = s)
    (suffix : Bytes) : FieldHolds (h.append r suffix) f b := by
  cases f with
  | none => exact hf
  | some s =>
    obtain ⟨hb, rest, hs⟩ := hf
    exact ⟨hb, hs.append (hr s rfl) suffix⟩

theorem FieldHolds.lt (hf : FieldHolds h f b) : ∀ s ∈ f, s.array < h.length := by
  rintro s rfl
  obtain ⟨-, rest, hs⟩ := hf
  exact hs.lt

/-- A field is unmarshalled behind everything that was allocated. -/
theorem unmarshal_spec (h : Heap UInt8) (b : Bytes) (room : Nat) :
    ∃ extra, (unmarshal h b room).1 = h ++ extra ∧ FieldHolds (h ++ extra) (unmarshal h b room).2 b ∧
      ∀ s ∈ (unmarshal h b room).2, h.length ≤ s.array := by
  unfold unmarshal
  split
  · next hb => exact ⟨[], by simp, hb, by simp⟩
  next hb =>
  refine ⟨[b ++ List.replicate room 0], rfl, ⟨hb, _, holds_last h b _⟩, ?_⟩
  rintro s ⟨⟩
  exact Nat.le_refl _

theorem Intact.grow (hx : Intact h x) (extra : Heap UInt8) : Intact (h ++ extra) x :=
  ⟨hx.plain.grow extra, hx.block.grow extra⟩

/-- The bytes that a message's fields stand for. -/
def Original (C : S2) (x : Received) (raw : Bytes) : Prop :=
  (x.block = [] ∧ x.plain ≠ [] ∧ raw = x.plain) ∨
    (x.plain = [] ∧ x.block ≠ [] ∧ C.decode x.block = .ok raw ∧ raw.length ≤ maxCompressedRelayBytes)

theorem Original.unique {raw raw' : Bytes} (h : Original C x raw) (h' : Original C x raw') : raw = raw' := by
  rcases h with ⟨-, hne, rfl⟩ | ⟨hp, -, hdec, -⟩ <;> rcases h' with ⟨-, hne', rfl⟩ | ⟨hp', -, hdec', -⟩
  · rfl
  · exact absurd hp' hne
  · exact absurd hp hne'
  · exact Except.ok.inj (hdec.symm.trans hdec')

def sizeBound (x : Received) : Nat := if x.plain = [] then maxCompressedRelayBytes else x.plain.length

/-- The error, or the bytes in the array of the plain field or in a new one. -/
def Outcome (C : S2) (h : Heap UInt8) (x : Received) (spare : Nat) (extra : Heap UInt8) :
    Except WrappedError Lib.Slice → Prop
  | .error e => .relayBytesCorrupt ∈ e.wraps ∧ ∀ raw, ¬Original C x raw
  | .ok r => (some r = x.message.relayBytes ∨ r.array = h.length) ∧
      ∃ raw rest, Original C x raw ∧ r.Holds (h ++ extra) raw rest ∧ spare ≤ rest.length

/-- A panic for want of address space, or an outcome and what it allocated. -/
def Meant (C : S2) (h : Heap UInt8) (x : Received) (spare : Nat)
    (res : Option (Heap UInt8 × Except WrappedError Lib.Slice)) : Prop :=
  (res = none ∧ maxAlloc < sizeBound x + spare) ∨
    ∃ extra out, res = some (h ++ extra, out) ∧ extra.allocated ≤ sizeBound x + spare ∧ Outcome C h x spare extra out

attribute [local simp] Heap.allocated

theorem meant_error (detail : String) (cause : List Sentinel) (spare : Nat) (hx : ∀ raw, ¬Original C x raw) :
    Meant C h x spare (some (h, .error (corrupt detail cause))) :=
  .inr ⟨[], .error (corrupt detail cause), by simp, by simp, mem_cons_self, hx⟩

theorem meant_make {b : Bytes} {n spare : Nat} {o : Lib.Slice → Except WrappedError Lib.Slice} (hn : n ≤ sizeBound x)
    (hb : b.length ≤ n)
    (hout : Outcome C h x spare [b ++ List.replicate (n + spare - b.length) 0] (o ⟨h.length, b.length⟩)) :
    Meant C h x spare ((make h b (n + spare)).map fun (h, s) => (h, o s)) := by
  unfold make
  split
  · refine .inr ⟨_, _, rfl, ?_, hout⟩
    simp
    omega
  · exact .inl ⟨rfl, by omega⟩

theorem meant_copy {raw : Bytes} {n spare : Nat} (hraw : Original C x raw) (hlen : raw.length = n)
    (hn : n ≤ sizeBound x) : Meant C h x spare ((make h raw (n + spare)).map fun (h, s) => (h, .ok s)) := by
  refine meant_make hn (Nat.le_of_eq hlen) ⟨.inr rfl, raw, _, hraw, holds_last h raw _, ?_⟩
  rw [length_replicate]
  omega

theorem originalRelayBytes_spec (C : S2) (hx : Intact h x) (spare : Nat) :
    Meant C h x spare (originalRelayBytes C h x.message spare) := by
  obtain ⟨plain, block, ⟨p, c⟩, restored⟩ := x
  obtain ⟨hplain, hblock⟩ := hx
  unfold originalRelayBytes
  cases p with
  | some s =>
    obtain ⟨hne, rest, hs⟩ := hplain
    cases c with
    | some t => exact meant_error _ _ _ fun raw hraw => by simp_all [Original, FieldHolds]
    | none =>
      have hraw : Original C ⟨plain, block, ⟨some s, none⟩, restored⟩ plain := .inl ⟨hblock, hne, rfl⟩
      dsimp only
      rw [hs.spare, hs.read, hs.2]
      split
      · next hroom =>
        exact .inr ⟨[], .ok s, by simp, by simp, .inl rfl, plain, rest, hraw, hs.grow [], hroom⟩
      · exact meant_copy hraw rfl (by simp [sizeBound, hne])
  | none =>
    obtain rfl : plain = [] := hplain
    cases c with
    | none =>
      obtain rfl : block = [] := hblock
      exact meant_error _ _ _ fun raw hraw => by simp_all [Original]
    | some t =>
      obtain ⟨hne, rest, ht⟩ := hblock
      have hdecoded : ∀ raw, Original C ⟨[], block, ⟨none, some t⟩, restored⟩ raw →
          C.decode block = .ok raw ∧ raw.length ≤ maxCompressedRelayBytes := by
        rintro raw (⟨hb, -⟩ | ⟨-, -, hdec⟩)
        · exact absurd hb hne
        · exact hdec
      dsimp only
      rw [ht.read]
      cases hlen : C.decodedLen block with
      | error err =>
        refine meant_error _ _ _ fun raw hraw => ?_
        rw [C.length_decode _ _ (hdecoded raw hraw).1] at hlen
        cases hlen
      | ok n =>
        dsimp only
        split
        · next hmax =>
          refine meant_error _ _ _ fun raw hraw => ?_
          have hdec := hdecoded raw hraw
          rw [C.length_decode _ _ hdec.1] at hlen
          obtain rfl := Except.ok.inj hlen
          omega
        next hmax =>
        have hn : n ≤ sizeBound ⟨[], block, ⟨none, some t⟩, restored⟩ := by
          simp only [sizeBound, if_pos]
          omega
        cases hdec : C.decode block with
        | error err =>
          refine meant_make (o := fun _ => .error (corrupt err [.s2 err])) hn (Nat.zero_le n)
            ⟨mem_cons_self, fun raw hraw => ?_⟩
          rw [(hdecoded raw hraw).1] at hdec
          cases hdec
        | ok raw =>
          have hraw : raw.length = n := by
            have := C.length_decode _ _ hdec
            rw [hlen] at this
            exact (Except.ok.inj this).symm
          exact meant_copy (.inr ⟨rfl, hne, hdec, by omega⟩) hraw hn

end Messages

section Runs

variable {C : S2} {w : Miner}

section
variable (hw : Inv w)
include hw

/-- Memory grows, one message is put, and the slices it did not have are each of a new array of its own. -/
theorem Inv.put {extra : Heap UInt8} {i : Nat} {x : Received} (new : Lib.Slice → Prop)
    (hx : Intact (w.heap ++ extra) x) (hhad : ∀ s ∈ x.slices, w.Has i s ∨ new s)
    (hnew : ∀ s, new s → w.heap.length ≤ s.array ∧ s.array < (w.heap ++ extra).length)
    (hsame : ∀ r s, new r → new s → r.array = s.array → r = s) :
    Inv ⟨w.heap ++ extra, Function.update w.received i (some x)⟩ := by
  have hhas : ∀ {j s}, Miner.Has ⟨w.heap ++ extra, Function.update w.received i (some x)⟩ j s →
      w.Has j s ∨ (j = i ∧ new s) := by
    rintro j s ⟨y, hy, hs⟩
    by_cases hj : j = i
    · obtain rfl : x = y := by simpa [hj] using hy
      exact (hhad s hs).imp (hj ▸ ·) (⟨hj, ·⟩)
    · exact .inl ⟨y, by simpa [hj] using hy, hs⟩
  refine ⟨?_, ?_, ?_⟩
  · intro j y hy
    by_cases hj : j = i
    · obtain rfl : x = y := by simpa [hj] using hy
      exact hx
    · exact (hw.intact j y (by simpa [hj] using hy)).grow extra
  · intro j s hs
    rcases hhas hs with hs | ⟨-, hs⟩
    · exact Nat.lt_of_lt_of_le (hw.old j s hs) (by simp)
    · exact (hnew s hs).2
  intro j k r s hr hs ha
  rcases hhas hr with hr | ⟨hj, hr⟩ <;> rcases hhas hs with hs | ⟨hk, hs⟩
  · exact hw.single j k r s hr hs ha
  · exact absurd (hw.old j r hr) (by have := (hnew s hs).1; omega)
  · exact absurd (hw.old k s hs) (by have := (hnew r hr).1; omega)
  · exact ⟨hj.trans hk.symm, hsame r s hr hs ha⟩

theorem unmarshal_inv (i : Nat) (plain block : Bytes) (room roomS2 : Nat) :
    Inv (step C w (.unmarshal i plain block room roomS2)) := by
  simp only [step]
  split
  · exact hw
  obtain ⟨e, he, hplain, hle⟩ := unmarshal_spec w.heap plain room
  rw [he]
  obtain ⟨e', he', hblock, hle'⟩ := unmarshal_spec (w.heap ++ e) block roomS2
  have hplain' := hplain.grow e'
  rw [he']
  simp only [append_assoc] at hplain' hblock ⊢
  refine hw.put (fun s => s ∈ (unmarshal w.heap plain room).2 ∨ s ∈ (unmarshal (w.heap ++ e) block roomS2).2)
    ⟨hplain', hblock⟩ (fun s hs => .inr (by simpa [Received.slices] using hs)) ?_ ?_
  · rintro s (hs | hs)
    · exact ⟨hle s hs, hplain'.lt s hs⟩
    · exact ⟨Nat.le_trans (by simp) (hle' s hs), hblock.lt s hs⟩
  rintro r s (hr | hr) (hs | hs) ha
  · exact Option.mem_unique hr hs
  · exact absurd (hplain.lt r hr) (by have := hle' s hs; omega)
  · exact absurd (hplain.lt s hs) (by have := hle' r hr; omega)
  · exact Option.mem_unique hr hs

theorem original_inv (i spare : Nat) : Inv (step C w (.original i spare)) := by
  simp only [step]
  split
  · exact hw
  next x hi =>
  have hx := hw.intact i x hi
  rcases originalRelayBytes_spec C hx spare with ⟨hres, -⟩ | ⟨extra, out, hres, -, hout⟩
  · rw [hres]
    exact hw
  rw [hres]
  cases out with
  | error e =>
    exact { hw with
      intact := fun j y hy => (hw.intact j y hy).grow extra
      old := fun j s hs => Nat.lt_of_lt_of_le (hw.old j s hs) (by simp) }
  | ok r =>
    obtain ⟨hown, raw, rest, -, hr, -⟩ := hout
    refine hw.put (fun s => s = r ∧ r.array = w.heap.length) { hx.grow extra with } ?_ ?_ ?_
    · intro s hs
      have hold : s ∈ x.slices → w.Has i s := fun hs => ⟨x, hi, hs⟩
      simp only [Received.slices, mem_append, mem_cons] at hs hold
      rcases hs with hs | rfl | hs
      · exact .inl (hold (.inl hs))
      · exact hown.imp (fun hown => hold (by simp [← hown])) (⟨rfl, ·⟩)
      · exact .inl (hold (.inr hs))
    · rintro s ⟨rfl, ha⟩
      exact ⟨Nat.le_of_eq ha.symm, hr.lt⟩
    · rintro s t ⟨rfl, -⟩ ⟨rfl, -⟩ -
      rfl

theorem appendLeaf_inv (i k : Nat) (suffix : Bytes) : Inv (step C w (.appendLeaf i k suffix)) := by
  simp only [step]
  split
  · next r hr =>
    obtain ⟨x, hi, hk⟩ := Option.bind_eq_some_iff.mp hr
    have hhas : w.Has i r := ⟨x, hi, by simp [Received.slices, mem_of_getElem? hk]⟩
    refine { hw with intact := ?_, old := ?_ }
    · intro j y hy
      have hsame : ∀ s ∈ y.slices, r.array = s.array → r = s := fun s hs ha =>
        (hw.single i j r s hhas ⟨y, hy, hs⟩ ha).2
      exact ⟨(hw.intact j y hy).plain.append (fun s hs => hsame s (by simp_all [Received.slices])) suffix,
        (hw.intact j y hy).block.append (fun s hs => hsame s (by simp_all [Received.slices])) suffix⟩
    intro j s hs
    rw [Heap.length_append]
    exact hw.old j s hs
  · exact hw

theorem release_inv (i : Nat) : Inv (step C w (.release i)) := by
  simp only [step]
  cases hi : w.received i with
  | none =>
    rw [Option.map_none, ← hi, Function.update_eq_self]
    exact hw
  | some x =>
    have hreleased : Intact (w.heap ++ []) { x with plain := [], block := [], message := {} } := ⟨rfl, rfl⟩
    simpa using hw.put (fun _ => False) hreleased
      (fun s hs => .inl ⟨x, hi, by simp_all [Received.slices]⟩) (by simp) (by simp)

theorem step_inv (a : Act) : Inv (step C w a) := by
  cases a with
  | unmarshal i plain block room roomS2 => exact unmarshal_inv hw i plain block room roomS2
  | original i spare => exact original_inv hw i spare
  | appendLeaf i k suffix => exact appendLeaf_inv hw i k suffix
  | release i => exact release_inv hw i
end

theorem run_inv (C : S2) (as : List Act) : Inv (run (step C) {} as) :=
  inv_of_run Inv (fun _ a hw => step_inv hw a) as ⟨by simp, by simp [Miner.Has], by simp [Miner.Has]⟩

/-- The publisher's bounds are the miner's: what it compresses is a block that is accepted. -/
theorem original_wireFields {x : Received} {raw : Bytes} (hraw : raw ≠ [])
    (hx : (x.plain, x.block) = wireFields C raw) : Original C x raw := by
  unfold wireFields compressRelayBytes at hx
  split at hx
  · next compressed hc =>
    obtain ⟨hp, hb⟩ := Prod.mk.inj hx
    have hle : raw.length ≤ maxCompressedRelayBytes ∧ compressed = C.encode raw := by
      grind
    rw [hle.2] at hb
    exact .inr ⟨hp, hb ▸ C.encode_ne_nil raw, by rw [hb, C.decode_encode], hle.1⟩
  · obtain ⟨hp, hb⟩ := Prod.mk.inj hx
    exact .inl ⟨hb, hp ▸ hraw, hp.symm⟩

end Runs

def stored : S2 where
  estimateBlockSize _ := -1
  encode raw := 0 :: raw
  decodedLen
    | [] => .error "s2: corrupt input"
    | _ :: raw => .ok raw.length
  decode
    | [] => .error "s2: corrupt input"
    | _ :: raw => .ok raw
  encode_ne_nil _ := nofun
  decode_encode _ := rfl
  length_decode block raw h := by
    cases block with
    | nil => cases h
    | cons b block =>
      obtain rfl := Except.ok.inj h
      rfl

/-- Whatever came before, and for every spare that can be allocated: a message yields the
bytes its fields stand for, in memory that no other message has and with the spare
behind them, or the corrupt error when they stand for none; and a published relay is one
that yields its bytes. -/
theorem relay_bytes_survive (C : S2) (as : List Act) (i spare : Nat) (x : Received)
    (hx : (run (step C) {} as).received i = some x) (hspare : sizeBound x + spare ≤ maxAlloc) :
    ∃ h out, originalRelayBytes C (run (step C) {} as).heap x.message spare = some (h, out) ∧
      h.allocated ≤ (run (step C) {} as).heap.allocated + sizeBound x + spare ∧
      (∀ e, out = .error e → .relayBytesCorrupt ∈ e.wraps) ∧
      (∀ r, out = .ok r → Original C x (h.read r) ∧ spare ≤ h.spare r ∧
        ∀ j s, j ≠ i → (run (step C) {} as).Has j s → r.array ≠ s.array) ∧
      ∀ raw, raw ≠ [] → (x.plain, x.block) = wireFields C raw → ∃ r, out = .ok r ∧ h.read r = raw := by
  have hw := run_inv C as
  rcases originalRelayBytes_spec C (hw.intact i x hx) spare with ⟨-, hpanic⟩ | ⟨extra, out, hres, hsize, hout⟩
  · omega
  refine ⟨_, out, hres, ?_, ?_⟩
  · simp only [Heap.allocated, map_append, sum_append] at hsize ⊢
    omega
  cases out with
  | error e =>
    refine ⟨?_, by simp, fun raw hne hraw => absurd (original_wireFields hne hraw) (hout.2 raw)⟩
    rintro e ⟨⟩
    exact hout.1
  | ok r =>
    obtain ⟨hown, raw, rest, hraw, hr, hrest⟩ := hout
    refine ⟨by simp, ?_, fun raw' hne hwire => ⟨r, rfl, ?_⟩⟩
    · rintro r ⟨⟩
      rw [hr.read, hr.spare]
      refine ⟨hraw, hrest, fun j s hj hs ha => ?_⟩
      rcases hown with hown | hnew
      · exact hj (hw.single i j r s ⟨x, hx, by simp [Received.slices, ← hown]⟩ hs ha).1.symm
      · exact absurd (hw.old j s hs) (by omega)
    · rw [hr.read]
      exact hraw.unique (original_wireFields hne hwire)

/-- A relay of two bytes without room behind it, restored with the leaf's sixteen. -/
theorem relay_copied_for_its_leaf :
    ∃ h out, originalRelayBytes stored [[1, 2]] ⟨some ⟨0, 2⟩, none⟩ 16 = some (h, out) ∧
      ∃ r, out = .ok r ∧ h.read r = [1, 2] := by
  obtain ⟨h, out, hres, -, -, -, hraw⟩ := relay_bytes_survive stored [.unmarshal 0 [1, 2] [] 0 0] 0 16
    ⟨[1, 2], [], ⟨some ⟨0, 2⟩, none⟩, []⟩ rfl (by decide)
  exact ⟨h, out, hres, hraw [1, 2] (by simp) rfl⟩

/-- A spare that no allocation can have is a panic, neither the bytes nor an error. -/
theorem relay_panics_for_its_spare :
    originalRelayBytes stored (run (step stored) {} [.unmarshal 0 [1, 2] [] 0 0]).heap ⟨some ⟨0, 2⟩, none⟩
      (2 ^ 63 - 1) = none := by
  decide

end RelayMiner.Transport.RelayCodec
