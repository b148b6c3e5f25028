import Mathlib.Data.List.DropRight
import RelayMiner.Transport.PublishQueue
/-!
# Streams and chunks

`takeChunkBefore` cuts a full chunk where its last run of one stream begins. A
stream that was interrupted before that run and has more entries in it or behind
it is split all the same. That is the only way: `chunk_keeps_streams_whole` says
so of every queue, by where the entries of a stream stand.
-/

namespace RelayMiner.Transport

open List

variable {S : Type} {live : List (Queued S)} {n m : Nat} {s : S}

/-! ## Where the queue goes over a limit -/

/-- A chunk within both limits; one relay is taken whatever it weighs. -/
def Fits (chunk : List (Queued S)) : Prop :=
  chunk.length ≤ 1 ∨ chunk.length ≤ maxChunkCommands ∧ bytes0 chunk ≤ maxChunkBytes

/-- The first `n` entries fit a chunk, and with the next one they do not. -/
def FitsUpTo (live : List (Queued S)) (n : Nat) : Prop :=
  n < live.length ∧ Fits (live.take n) ∧ ¬ Fits (live.take (n + 1))

theorem Fits.take {i j : Nat} (h : Fits (live.take j)) (hij : i ≤ j) : Fits (live.take i) := by
  have hlen : (live.take i).length ≤ (live.take j).length := by simp only [length_take]; omega
  have hbytes := bytes0_take_le live hij
  unfold Fits at h ⊢
  omega

theorem FitsUpTo.unique (hn : FitsUpTo live n) (hm : FitsUpTo live m) : n = m := by
  rcases Nat.lt_trichotomy n m with h | h | h
  · exact absurd (hm.2.1.take h) hn.2.2
  · exact h
  · exact absurd (hn.2.1.take h) hm.2.2

/-- A scan stops at an entry that would take the chunk over a limit. -/
theorem scan_stop {cmds bytes k : Nat} {qs : List (Queued S)} (h : (scan cmds bytes qs).stop = some k) :
    ∃ pre q post, qs = pre ++ q :: post ∧ k = cmds + pre.length ∧ 0 < k ∧
      (maxChunkCommands < k + 1 ∨ maxChunkBytes < bytes + bytes0 (pre ++ [q])) := by
  induction qs generalizing cmds bytes with
  | nil => cases h
  | cons q qs ih =>
    unfold scan at h
    split at h
    next hover =>
      cases h
      exact ⟨[], q, qs, rfl, rfl, hover.2, by simpa [bytes0] using hover.1⟩
    obtain ⟨pre, q', post, rfl, rfl, hpos, hover⟩ := ih h
    refine ⟨q :: pre, q', post, rfl, by simp; omega, hpos, ?_⟩
    have hb : bytes0 (q :: pre ++ [q']) = q.bytes + bytes0 (pre ++ [q']) := by simp [bytes0]
    omega

theorem scan_fitsUpTo (h : (scan 0 0 live).stop = some n) : FitsUpTo live n ∧ 0 < n := by
  obtain ⟨k, hk, -, -, hcmds, hbytes, hend⟩ := scan_spec 0 0 live (Nat.zero_le _) (.inl (Nat.zero_le _))
  obtain ⟨pre, q, post, rfl, hn, hpos, hover⟩ := scan_stop h
  rcases hend with ⟨hstop, -⟩ | ⟨hstop, -⟩
  · obtain rfl : n = 0 + k := Option.some.inj (h.symm.trans hstop)
    rw [Nat.zero_add] at *
    subst hn
    refine ⟨⟨by simp, ?_, ?_⟩, hpos⟩
    · unfold Fits
      rw [length_take_of_le hk]
      omega
    · rw [show pre ++ q :: post = (pre ++ [q]) ++ post by simp, take_left' (by simp)]
      unfold Fits
      rw [length_append, length_singleton]
      omega
  · rw [h] at hstop
    cases hstop

theorem scan_of_fitsUpTo (h : FitsUpTo live n) : (scan 0 0 live).stop = some n := by
  cases hstop : (scan 0 0 live).stop with
  | some m => rw [(scan_fitsUpTo hstop).1.unique h]
  | none =>
    obtain ⟨k, -, -, -, hcmds, hbytes, hend⟩ := scan_spec 0 0 live (Nat.zero_le _) (.inl (Nat.zero_le _))
    have hall : k = live.length := by simpa [hstop] using hend
    have hfits : Fits (live.take live.length) := by
      subst hall
      unfold Fits
      rw [take_length] at hbytes ⊢
      omega
    exact absurd (hfits.take h.1) h.2.2

/-! ## Where a stream stands -/

def streamAt (live : List (Queued S)) (m : Nat) : Option S := live[m]?.map (·.stream)

theorem streamAt_take (h : m < n) : streamAt (live.take n) m = streamAt live m := by
  rw [streamAt, streamAt, getElem?_take_of_lt h]

theorem exists_mem_take {c : Nat} :
    (∃ x ∈ live.take c, x.stream = s) ↔ ∃ i < c, streamAt live i = some s := by
  simp only [mem_take_iff_getElem, streamAt, Option.map_eq_some_iff, getElem?_eq_some_iff]
  grind

theorem exists_mem_drop {c : Nat} :
    (∃ x ∈ live.drop c, x.stream = s) ↔ ∃ k ≥ c, streamAt live k = some s := by
  simp only [mem_iff_getElem?, getElem?_drop, streamAt, Option.map_eq_some_iff]
  constructor
  · rintro ⟨x, ⟨m, hm⟩, hx⟩
    exact ⟨c + m, Nat.le_add_right _ _, x, hm, hx⟩
  · rintro ⟨k, hk, x, hx, hs⟩
    exact ⟨x, ⟨k - c, by rwa [Nat.add_sub_cancel' hk]⟩, hs⟩

variable [DecidableEq S]

def ofStream (s : S) (l : List (Queued S)) : List (Queued S) := l.filter (·.stream = s)

/-- `streamStart` is where the last run of one stream begins. -/
theorem streamStart_spec {part : List (Queued S)} (hne : part ≠ []) :
    ∃ t, streamStart part < part.length ∧ (∀ m, streamStart part ≤ m → m < part.length → streamAt part m = some t) ∧
      ∀ m, m + 1 = streamStart part → streamAt part m ≠ some t := by
  have hlast : part.getLast? = some (part.getLast hne) := getLast?_eq_some_getLast hne
  generalize hl : part.getLast hne = last at hlast
  have hpart := rdropWhile_append_rtakeWhile (p := (·.stream = last.stream)) (l := part)
  have hback : part.rtakeWhile (·.stream = last.stream) ≠ [] := by
    simpa [rtakeWhile_eq_nil_iff] using ⟨hne, congrArg _ hl⟩
  have hrun : ∀ q ∈ part.rtakeWhile (·.stream = last.stream), q.stream = last.stream := fun q hq => by
    simpa using mem_rtakeWhile_imp hq
  have hbefore := rdropWhile_last_not (fun q : Queued S => q.stream = last.stream) part
  have hstart : streamStart part = (part.rdropWhile (·.stream = last.stream)).length := by
    simp [streamStart, hlast, rdropWhile]
  rw [hstart]
  generalize part.rdropWhile (·.stream = last.stream) = front at hpart hbefore
  generalize part.rtakeWhile (·.stream = last.stream) = back at hpart hback hrun
  subst hpart
  refine ⟨last.stream, by simpa [length_pos_iff] using hback, fun m hm hlt => ?_, fun m hm => ?_⟩
  · rw [length_append] at hlt
    rw [streamAt, getElem?_append_right hm, getElem?_eq_getElem (by omega)]
    exact congrArg some (hrun _ (getElem_mem _))
  · have hfront : front ≠ [] := by rintro rfl; cases hm
    rw [streamAt, getElem?_append_left (by omega), show m = front.length - 1 by omega, ← getLast?_eq_getElem?,
      getLast?_eq_some_getLast hfront]
    simpa using hbefore hfront

/-- With the first `n` entries fitting a chunk: a stream that another one interrupts among them (or right behind them, if
they are all its own) comes back in their last run or later. -/
def ComesBack (live : List (Queued S)) (n : Nat) (s : S) : Prop :=
  ∃ i j k, i < j ∧ j < k ∧ streamAt live i = some s ∧ streamAt live j ≠ some s ∧ streamAt live k = some s ∧
    (∀ m, k ≤ m → m < n → streamAt live m = some s) ∧ (j < n ∨ j = n ∧ ∀ m < n, streamAt live m = some s)

def Oversized (s : S) (live : List (Queued S)) : Prop :=
  maxChunkCommands < (ofStream s live).length ∨ maxChunkBytes < bytes0 (ofStream s live)

/-! ## The cut -/

theorem takeChunkBefore_cut [Inhabited S] {q q' : Slice S} {cutoff : Nat} {chunk : List (Queued S)}
    (h : q.takeChunkBefore cutoff = some (chunk, q')) :
    chunk = q.live.take (cut q.live) ∧ q'.live = q.live.drop (cut q.live) := by
  unfold Slice.takeChunkBefore at h
  split at h
  · cases h
  next first rest hl =>
    split at h
    · cases h
    obtain ⟨rfl, rfl⟩ := h
    rw [Slice.live_advance, hl]
    exact ⟨rfl, rfl⟩


/-- A stream that is all of what fits, and of what goes over the limit too, is more than a chunk. -/
theorem oversized_of_front (hn : FitsUpTo live n)
    (h : ∀ m ≤ n, streamAt live m = some s) : Oversized s live := by
  have hall : ∀ q ∈ live.take (n + 1), q.stream = s := by
    intro q hq
    obtain ⟨m, hm, rfl⟩ := mem_take_iff_getElem.1 hq
    have hs := h m (by omega)
    rw [streamAt, getElem?_eq_getElem (by omega)] at hs
    exact Option.some.inj hs
  have hfilter : (live.take (n + 1)).filter (·.stream = s) = live.take (n + 1) :=
    filter_eq_self.2 fun q hq => by simpa using hall q hq
  have hsplit : ofStream s live = live.take (n + 1) ++ ofStream s (live.drop (n + 1)) := by
    conv_lhs => rw [← take_append_drop (n + 1) live, ofStream, filter_append, hfilter]
    rfl
  have hover := hn.2.2
  unfold Fits at hover
  rw [Oversized, hsplit, length_append, bytes0_append]
  omega

/-- The cut of a queue that does not fit is where the last run of what fits begins, unless that run is all of it. -/
theorem cut_of_fitsUpTo (h : (scan 0 0 live).stop = some n) :
    ∃ c t, c < n ∧ cut live = (if c = 0 then n else c) ∧ (∀ m, c ≤ m → m < n → streamAt live m = some t) ∧
      ∀ m, m + 1 = c → streamAt live m ≠ some t := by
  obtain ⟨hfit, hpos⟩ := scan_fitsUpTo h
  have hlen : (live.take n).length = n := length_take_of_le hfit.1.le
  have hne : live.take n ≠ [] := by
    rw [← length_pos_iff]
    omega
  obtain ⟨t, hlt, hrun, hbefore⟩ := streamStart_spec hne
  rw [hlen] at hlt hrun
  refine ⟨streamStart (live.take n), t, hlt, by simp only [cut, h], fun m hm hmn => ?_, fun m hm => ?_⟩
  · rw [← streamAt_take hmn]
    exact hrun m hm hmn
  · rw [← streamAt_take (n := n) (by omega)]
    exact hbefore m hm

/-- A stream on both sides of the cut that is not more than a chunk comes back. -/
theorem comesBack_of_split (hstop : (scan 0 0 live).stop = some n)
    (hsize : ¬ Oversized s live) (htake : ∃ i < cut live, streamAt live i = some s)
    (hdrop : ∃ k ≥ cut live, streamAt live k = some s) : ComesBack live n s := by
  obtain ⟨hfit, hpos⟩ := scan_fitsUpTo hstop
  obtain ⟨c, t, hc, hcut, hrun, hbefore⟩ := cut_of_fitsUpTo hstop
  obtain ⟨i, hi, hsi⟩ := htake
  obtain ⟨k, hk, hsk⟩ := hdrop
  rw [hcut] at hi hk
  by_cases h0 : c = 0
  · -- what fits is one run, so the stream is its own and the next entry is another's
    rw [if_pos h0] at hi hk
    obtain rfl : t = s := Option.some.inj ((hrun i (by omega) hi).symm.trans hsi)
    have hnext : streamAt live n ≠ some t := fun hsn =>
      hsize (oversized_of_front hfit fun m hm => (Nat.lt_or_eq_of_le hm).elim (hrun m (by omega)) (· ▸ hsn))
    have hkn : n ≠ k := fun h => hnext (h ▸ hsk)
    exact ⟨i, n, k, hi, by omega, hsi, hnext, hsk, fun m _ _ => by omega, .inr ⟨rfl, fun m hm => hrun m (by omega) hm⟩⟩
  rw [if_neg h0] at hi hk
  by_cases hst : s = t
  · -- the last run is of the stream: the entry before the run interrupts it
    subst hst
    have hbound := hbefore (c - 1) (by omega)
    have hic : i ≠ c - 1 := fun h => hbound (h ▸ hsi)
    exact ⟨i, c - 1, k, by omega, by omega, hsi, hbound, hsk, fun m hm hmn => hrun m (by omega) hmn, .inl (by omega)⟩
  · -- the last run is another stream's and interrupts it
    have hrunc : ∀ m, c ≤ m → m < n → streamAt live m ≠ some s := fun m hm hmn h =>
      hst (Option.some.inj (h.symm.trans (hrun m hm hmn)))
    have hkn : n ≤ k := by
      by_contra hlt
      exact hrunc k hk (by omega) hsk
    exact ⟨i, c, k, hi, by omega, hsi, hrunc c (le_refl _) hc, hsk, fun m _ _ => by omega, .inl hc⟩

/-- A stream that comes back is on both sides of the cut. -/
theorem ComesBack.split (hstop : (scan 0 0 live).stop = some n)
    (h : ComesBack live n s) :
    (∃ i < cut live, streamAt live i = some s) ∧ ∃ k ≥ cut live, streamAt live k = some s := by
  obtain ⟨c, t, hc, hcut, hrun, hbefore⟩ := cut_of_fitsUpTo hstop
  obtain ⟨i, j, k, hij, hjk, hsi, hsj, hsk, hend, hj⟩ := h
  rcases hj with hjn | ⟨rfl, hall⟩
  · have hic : i < c := by
      by_contra hle
      exact hsj ((hrun j (by omega) hjn).trans ((hrun i (by omega) (by omega)).symm.trans hsi))
    have hck : c ≤ k := by
      by_contra hlt
      have hlast := hend (c - 1) (by omega) (by omega)
      exact hbefore (c - 1) (by omega) (hlast.trans ((hend c (by omega) hc).symm.trans (hrun c (le_refl _) hc)))
    rw [hcut, if_neg (by omega)]
    exact ⟨⟨i, hic, hsi⟩, k, hck, hsk⟩
  · have h0 : c = 0 := by
      by_contra hne
      have hlast := hall (c - 1) (by omega)
      exact hbefore (c - 1) (by omega) (hlast.trans ((hall c hc).symm.trans (hrun c (le_refl _) hc)))
    rw [hcut, if_pos h0]
    exact ⟨⟨i, hij, hsi⟩, k, hjk.le, hsk⟩

/-- For every queue and cutoff, the streams with entries in the chunk and in what is left are all more than a chunk takes
if and only if no other stream comes back at the limit. -/
theorem chunk_keeps_streams_whole [Inhabited S] {q q' : Slice S} {cutoff : Nat} {chunk : List (Queued S)}
    (h : q.takeChunkBefore cutoff = some (chunk, q')) :
    (∀ s, (∃ x ∈ chunk, x.stream = s) → (∃ x ∈ q'.live, x.stream = s) → Oversized s q.live) ↔
      ∀ n, FitsUpTo q.live n → ∀ s, ComesBack q.live n s → Oversized s q.live := by
  obtain ⟨rfl, hlive⟩ := takeChunkBefore_cut h
  simp only [hlive, exists_mem_take, exists_mem_drop]
  constructor
  · intro hwhole n hn s hback
    obtain ⟨htake, hdrop⟩ := hback.split (scan_of_fitsUpTo hn)
    exact hwhole s htake hdrop
  · intro hcond s htake hdrop
    by_contra hsize
    cases hstop : (scan 0 0 q.live).stop with
    | none =>
      -- everything fits, so nothing is left
      obtain ⟨k, hk, hsk⟩ := hdrop
      simp only [cut, hstop] at hk
      rw [streamAt, getElem?_eq_none hk] at hsk
      cases hsk
    | some n => exact hsize (hcond n (scan_fitsUpTo hstop).1 s (comesBack_of_split hstop hsize htake hdrop))

def queueOf (entries : List (Nat × Nat)) : Slice Nat where
  slots := entries.map fun e => { stream := e.1, supplier := e.1, bytes := e.2, seq := 0 }
  head_le := Nat.zero_le _

def taken (q : Slice Nat) : Option (List Nat × List Nat) :=
  (q.takeChunkBefore 0).map fun p => (p.1.map (·.stream), p.2.live.map (·.stream))

def backInTime : Slice Nat := queueOf [(2, 10), (1, 600000), (2, 10), (3, 10), (1, 600000)]

/-- Stream 2 fits a chunk and is interrupted, but it is back before the last run of what fits and is taken whole. -/
theorem chunk_keeps_streams_whole_large :
    taken backInTime = some ([2, 1, 2], [3, 1]) ∧
      ∀ n, FitsUpTo backInTime.live n → ∀ s, ComesBack backInTime.live n s → Oversized s backInTime.live := by
  refine ⟨by decide, ?_⟩
  obtain ⟨chunk, q', h⟩ : ∃ chunk q', backInTime.takeChunkBefore 0 = some (chunk, q') := ⟨_, _, rfl⟩
  refine (chunk_keeps_streams_whole h).1 ?_
  rintro s ⟨x, hx, rfl⟩ ⟨y, hy, hxy⟩
  have hone : ∀ x ∈ chunk, ∀ y ∈ q'.live, y.stream = x.stream → x.stream = 1 := by cases h; decide
  rw [hone x hx y hy hxy]
  exact .inr (by decide)

/-- Two suppliers' relays, interleaved: the cut goes back over the run of stream 2 alone, and stream 1, which is less than
a chunk, is on both sides of it. -/
theorem chunk_splits_interleaved_stream :
    taken (queueOf [(1, 400000), (2, 400000), (1, 400000)]) = some ([1], [2, 1]) ∧
      (ofStream 1 (queueOf [(1, 400000), (2, 400000), (1, 400000)]).live).length ≤ maxChunkCommands ∧
      bytes0 (ofStream 1 (queueOf [(1, 400000), (2, 400000), (1, 400000)]).live) ≤ maxChunkBytes := by
  decide

end RelayMiner.Transport
