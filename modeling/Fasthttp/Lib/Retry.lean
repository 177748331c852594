import Fasthttp.Lib.Bufio

/-!
# Parse again with more: a retry loop over a buffered reader

The parser is run on everything that is buffered.
-/

namespace Retry

open Bufio List

variable {σ α ε : Type} [DecidableEq ε]

/-- A parser may edit the buffer in place: it returns the items it leaves there. -/
structure Loop (σ α ε : Type) where
  parse : σ → List α → σ × List α × Except ε Nat
  more : ε
  ended : ε → ε
  full : ε

namespace Loop

variable (L : Loop σ α ε)

def run : Nat → Nat → σ → Reader α ε → Option ε × σ × Reader α ε
  | 0, _, s, r => (some L.more, s, r)
  | fuel + 1, n, s, r =>
    match r.peek n with
    | (.short _ e, r) => (some (L.ended e), s, r)
    | (.full _, r) => (some L.full, s, r)
    | (.all _, r) =>
      match L.parse s r.buf with
      | (s, mem, .ok k) => (none, s, (r.overwrite mem).discard k)
      | (s, mem, .error e) =>
        if e = L.more then run fuel ((r.overwrite mem).buf.length + 1) s (r.overwrite mem)
        else (some e, s, r.overwrite mem)

/-- Each round buffers at least one item more, so this many rounds are enough (`read_rule`). -/
def read (s : σ) (r : Reader α ε) : Option ε × σ × Reader α ε := L.run (r.size + 2) 1 s r

def InPlace : Prop := ∀ s b, (L.parse s b).2.1.length = b.length

theorem run_map {L : Loop σ α ε} {φ : σ → σ}
    (hφ : ∀ s b, L.parse (φ s) b = (φ (L.parse s b).1, (L.parse s b).2)) (fuel n : Nat) (s : σ) (r : Reader α ε) :
    L.run fuel n (φ s) r = ((L.run fuel n s r).1, φ (L.run fuel n s r).2.1, (L.run fuel n s r).2.2) := by
  induction fuel generalizing n s r with
  | zero => rfl
  | succ fuel ih =>
    rcases hp : r.peek n with ⟨_ | _ | _, r'⟩
    · simp only [run, hp, hφ]
      rcases hparse : L.parse s r'.buf with ⟨s', mem, e | k⟩
      · by_cases he : e = L.more
        · simp [he, ih]
        · simp [he]
      · rfl
    · simp [run, hp]
    · simp [run, hp]

/-! ## The rule of the loop

`I` holds before every run of the parser, `Q` at the end. -/

structure Rule (I : σ → Reader α ε → Prop) (Q : Option ε → σ → Reader α ε → Prop) : Prop where
  ok : ∀ s r s' mem k, I s r → L.parse s r.buf = (s', mem, .ok k) →
    Q none s' ((r.overwrite mem).discard k)
  bad : ∀ s r s' mem e, I s r → L.parse s r.buf = (s', mem, .error e) → e ≠ L.more →
    Q (some e) s' (r.overwrite mem)
  full : ∀ s r s' mem, I s r → L.parse s r.buf = (s', mem, .error L.more) →
    r.size ≤ r.buf.length → Q (some L.full) s' (r.overwrite mem)
  ended : ∀ s r s' mem, I s r → L.parse s r.buf = (s', mem, .error L.more) →
    r.buf.length < r.size → r.src.pieces = [] → Q (some (L.ended r.src.last)) s' (r.overwrite mem).clear
  more : ∀ s r s' mem, I s r → L.parse s r.buf = (s', mem, .error L.more) →
    r.buf.length < r.size → r.src.pieces ≠ [] → I s' (r.overwrite mem).fetch

variable {L} {I : σ → Reader α ε → Prop} {Q : Option ε → σ → Reader α ε → Prop}

theorem run_of_peek {fuel n : Nat} {s : σ} {r r' : Reader α ε} {b : List α}
    (hp : r.peek n = (.all b, r')) : L.run (fuel + 1) n s r =
      match L.parse s r'.buf with
      | (s, mem, .ok k) => (none, s, (r'.overwrite mem).discard k)
      | (s, mem, .error e) =>
        if e = L.more then L.run fuel ((r'.overwrite mem).buf.length + 1) s (r'.overwrite mem)
        else (some e, s, r'.overwrite mem) := by
  simp [run, hp]

theorem run_rule (hR : L.Rule I Q) (hL : L.InPlace) :
    ∀ (fuel n : Nat) (s : σ) (r r' : Reader α ε) (b : List α), r.peek n = (.all b, r') → I s r' →
      r'.size + 1 < r'.buf.length + fuel →
      Q (L.run fuel n s r).1 (L.run fuel n s r).2.1 (L.run fuel n s r).2.2 := by
  intro fuel
  induction fuel with
  | zero =>
    intro n s r r' b _ _ hf
    have := r'.fits
    omega
  | succ fuel ih =>
    intro n s r r' b hp hI hf
    rw [run_of_peek hp]
    rcases hparse : L.parse s r'.buf with ⟨s', mem, e | k⟩
    · by_cases he : e = L.more
      · subst he
        have hlen : mem.length = r'.buf.length := by simpa [hparse] using hL s r'.buf
        have hbuf : (r'.overwrite mem).buf.length = r'.buf.length := by
          rw [r'.overwrite_buf hlen, hlen]
        obtain ⟨fuel, rfl⟩ : ∃ m, fuel = m + 1 := ⟨fuel - 1, by have := r'.fits; omega⟩
        simp only [if_true]
        by_cases hfull : r'.size ≤ r'.buf.length
        · have hsucc := (r'.overwrite mem).peek_succ_full (by simpa [hbuf] using hfull)
          simp only [run, hsucc]
          exact hR.full s r' s' mem hI hparse hfull
        · have hroom : (r'.overwrite mem).buf.length < (r'.overwrite mem).size := by
            simpa [hbuf] using hfull
          by_cases hps : r'.src.pieces = []
          · have hsucc := (r'.overwrite mem).peek_succ_ended hroom hps
            simp only [run, hsucc]
            exact hR.ended s r' s' mem hI hparse (by omega) hps
          · have hsucc := (r'.overwrite mem).peek_succ_more hroom hps
            have hgrow := (r'.overwrite mem).fetch_buf_length hroom hps
            refine ih _ _ _ _ _ hsucc (hR.more s r' s' mem hI hparse (by omega) hps) ?_
            simp only [Reader.fetch_size, Reader.overwrite_size]
            omega
      · simp only [he]
        exact hR.bad s r' s' mem e hI hparse he
    · exact hR.ok s r' s' mem k hI hparse

theorem read_rule (hR : L.Rule I Q) (hL : L.InPlace) (s : σ) (r : Reader α ε)
    (buffered : r.buf ≠ [] → I s r)
    (first : r.buf = [] → r.src.pieces ≠ [] → I s r.fetch)
    (none : r.buf = [] → r.src.pieces = [] → Q (some (L.ended r.src.last)) s r.clear) :
    Q (L.read s r).1 (L.read s r).2.1 (L.read s r).2.2 := by
  by_cases hb : r.buf = []
  · have hroom : r.buf.length < r.size := by simpa [hb] using r.pos
    by_cases hps : r.src.pieces = []
    · have hsucc := r.peek_succ_ended hroom hps
      simp only [hb, length_nil] at hsucc
      simp only [read, run, hsucc]
      exact none hb hps
    · have hsucc := r.peek_succ_more hroom hps
      simp only [hb] at hsucc
      exact run_rule hR hL _ 1 s r _ _ hsucc (first hb hps) (by simp; omega)
  · have hlen := length_pos_iff.mpr hb
    exact run_rule hR hL _ 1 s r r _ (r.peek_buffered (by omega)) (buffered hb) (by omega)

theorem read_ok {P : σ → Reader α ε → Prop} (hL : L.InPlace)
    (ok : ∀ s r s' mem k, I s r → L.parse s r.buf = (s', mem, .ok k) → P s' ((r.overwrite mem).discard k))
    (more : ∀ s r s' mem, I s r → L.parse s r.buf = (s', mem, .error L.more) → I s' (r.overwrite mem))
    (fetch : ∀ s r, I s r → I s r.fetch) {s s' : σ} {r r' : Reader α ε} (h : I s r) (hread : L.read s r = (none, s', r')) :
    P s' r' := by
  have hrule : L.Rule I fun out s r => out = none → P s r :=
    ⟨fun s r s' mem k hI hp _ => ok s r s' mem k hI hp, by simp, by simp, by simp,
      fun s r s' mem hI hp _ _ => fetch _ _ (more s r s' mem hI hp)⟩
  have hresult := read_rule hrule hL s r (fun _ => h) (fun _ _ => fetch s r h) (by simp)
  rw [hread] at hresult
  exact hresult rfl

theorem read_unread (hL : L.InPlace) (s : σ) (r : Reader α ε) : (L.read s r).2.2.unread.length ≤ r.unread.length ∧
    ((L.read s r).1 ≠ none → (L.read s r).2.2.unread.length = r.unread.length) := by
  have hwrite : ∀ {s s' : σ} {r₁ : Reader α ε} {mem : List α} {o : Except ε Nat}, L.parse s r₁.buf = (s', mem, o) →
      (r₁.overwrite mem).unread.length = r₁.unread.length := fun {s s' r₁ mem o} hp => by
    have hlen : mem.length = r₁.buf.length := by simpa [hp] using hL s r₁.buf
    simp [Reader.unread, r₁.overwrite_buf hlen, hlen]
  have hrule : L.Rule (fun _ r₁ => r₁.unread.length = r.unread.length) (fun out _ r₁ =>
      r₁.unread.length ≤ r.unread.length ∧ (out ≠ none → r₁.unread.length = r.unread.length)) := by
    have hfail : ∀ {r₁ : Reader α ε} {out : Option ε}, r₁.unread.length = r.unread.length →
        r₁.unread.length ≤ r.unread.length ∧ (out ≠ none → r₁.unread.length = r.unread.length) :=
      fun h => ⟨Nat.le_of_eq h, fun _ => h⟩
    refine ⟨?_, ?_, ?_, ?_, ?_⟩
    · intro s r₁ s' mem k hI hp
      refine ⟨?_, fun hne => absurd rfl hne⟩
      rw [← hI, ← hwrite hp]
      simp only [Reader.unread, Reader.discard_buf, Reader.discard_src, length_append, length_drop]
      omega
    · intro s r₁ s' mem e hI hp _
      exact hfail ((hwrite hp).trans hI)
    · intro s r₁ s' mem hI hp _
      exact hfail ((hwrite hp).trans hI)
    · intro s r₁ s' mem hI hp _ _
      exact hfail ((hwrite hp).trans hI)
    · intro s r₁ s' mem hI hp _ _
      rw [Reader.fetch_unread]
      exact (hwrite hp).trans hI
  exact read_rule hrule hL s r (fun _ => rfl) (fun _ _ => by rw [Reader.fetch_unread]) (fun _ _ => ⟨Nat.le_refl _, fun _ => rfl⟩)

/-! ## Reading does not depend on the pieces -/

variable {β : Type}

def outcome (view : σ → β) (o : Option ε × σ × Reader α ε) : Except ε β :=
  match o.1 with
  | none => .ok (view o.2.1)
  | some e => .error e

variable (L)

/-- Each run agrees with a judgement of the items so far, which stands when more items come. -/
structure Judged (t : List α) (size : Nat) (last : ε) (view : σ → β)
    (judge : List α → Option (Except ε β)) (I : σ → Reader α ε → Prop) : Prop where
  same : ∀ s r, I s r → r.size = size ∧ r.unread.length = t.length ∧ r.src.last = last
  stable : ∀ s r v, I s r → judge (t.take r.buf.length) = some v → judge (t.take size) = some v
  ok : ∀ s r s' mem k, I s r → L.parse s r.buf = (s', mem, .ok k) →
    judge (t.take r.buf.length) = some (.ok (view s'))
  bad : ∀ s r s' mem e, I s r → L.parse s r.buf = (s', mem, .error e) → e ≠ L.more →
    judge (t.take r.buf.length) = some (.error e)
  more : ∀ s r s' mem, I s r → L.parse s r.buf = (s', mem, .error L.more) →
    judge (t.take r.buf.length) = none ∧
      (r.buf.length < r.size → r.src.pieces ≠ [] → I s' (r.overwrite mem).fetch)

variable {L} {t : List α} {size : Nat} {last : ε} {view : σ → β} {judge : List α → Option (Except ε β)}

theorem read_judged (hJ : L.Judged t size last view judge I) (hL : L.InPlace) (s : σ) (r : Reader α ε)
    (hs : r.size = size) (ht : r.unread = t) (hl : r.src.last = last) (hnil : judge [] = none)
    (buffered : r.buf ≠ [] → I s r) (first : r.buf = [] → r.src.pieces ≠ [] → I s r.fetch) :
    outcome view (L.read s r)
      = (judge (t.take size)).getD (.error (if size ≤ t.length then L.full else L.ended last)) := by
  have hrule : L.Rule I (fun out s' _ => (match out with
      | none => .ok (view s')
      | some e => .error e) =
        (judge (t.take size)).getD (.error (if size ≤ t.length then L.full else L.ended last))) := by
    refine ⟨?_, ?_, ?_, ?_, ?_⟩
    · intro s r s' mem k hI hp
      rw [hJ.stable s r _ hI (hJ.ok s r s' mem k hI hp)]
      rfl
    · intro s r s' mem e hI hp he
      rw [hJ.stable s r _ hI (hJ.bad s r s' mem e hI hp he)]
      rfl
    · intro s r s' mem hI hp hfull
      obtain ⟨hsize, hlen, -⟩ := hJ.same s r hI
      have hj := (hJ.more s r s' mem hI hp).1
      have : r.buf.length = size := by have := r.fits; omega
      have hle : size ≤ t.length := by
        rw [← hlen, Reader.unread, length_append]; omega
      rw [← this, hj, if_pos (this ▸ hle)]
      rfl
    · intro s r s' mem hI hp hroom hps
      obtain ⟨hsize, hlen, hlast⟩ := hJ.same s r hI
      have hj := (hJ.more s r s' mem hI hp).1
      have hall : r.buf.length = t.length := by
        rw [← hlen, Reader.unread, (Source.items_eq_nil _).mpr hps, append_nil]
      rw [hall, take_length] at hj
      rw [take_of_length_le (by omega), hj, if_neg (by omega), hlast]
      rfl
    · intro s r s' mem hI hp hroom hps
      exact (hJ.more s r s' mem hI hp).2 hroom hps
  refine read_rule hrule hL s r buffered first (fun hb hps => ?_)
  have : t = [] := by rw [← ht, Reader.unread, hb, (Source.items_eq_nil _).mpr hps, append_nil]
  have hpos := r.pos
  simp only [this, take_nil, hnil, length_nil]
  rw [if_neg (by omega), hl]
  rfl

variable (L) in
/-- What one run says, unless it asks for more. -/
def judgement (view : σ → β) (s : σ) (b : List α) : Option (Except ε β) :=
  match L.parse s b with
  | (s', _, .ok _) => some (.ok (view s'))
  | (_, _, .error e) => if e = L.more then none else some (.error e)

/-- The runs before all that fits is buffered say what a run on all of it says, or leave no trace: `S n` are the states in
which a run on `n` items is as one in the first state. -/
structure OneLook (L : Loop σ α ε) (view : σ → β) (S : Nat → σ → Prop) (s : σ) (r : Reader α ε) : Prop where
  start : ∀ n, S n s
  mono : ∀ n m s', n ≤ m → S n s' → S m s'
  alike : ∀ n s', S n s' → L.parse s' (r.unread.take n) = L.parse s (r.unread.take n)
  stable : ∀ n < min r.size r.unread.length, r.Arrives n → ∀ v, L.judgement view s (r.unread.take n) = some v →
    L.judgement view s (r.unread.take r.size) = some v
  waits : ∀ n < min r.size r.unread.length, r.Arrives n → ∀ s' mem, L.parse s (r.unread.take n) = (s', mem, .error L.more) →
    S n s' ∧ mem = r.unread.take n

theorem OneLook.read {S : Nat → σ → Prop} {s : σ} {r : Reader α ε} (h : L.OneLook view S s r) (hL : L.InPlace)
    (hnil : L.judgement view s [] = none) :
    outcome view (L.read s r) = (L.judgement view s (r.unread.take r.size)).getD
      (.error (if r.size ≤ r.unread.length then L.full else L.ended r.src.last)) := by
  let I : σ → Reader α ε → Prop := fun s' r' =>
    S r'.buf.length s' ∧ r'.unread = r.unread ∧ r'.size = r.size ∧ r'.src.last = r.src.last ∧ r.Ahead r'
  have hbuf : ∀ {s' r'}, I s' r' → r'.buf = r.unread.take r'.buf.length := fun {s' r'} hI => by
    rw [← hI.2.1, Reader.unread, take_left' rfl]
  have hparse : ∀ {s' r'}, I s' r' → L.parse s' r'.buf = L.parse s (r.unread.take r'.buf.length) := fun {s' r'} hI => by
    rw [← h.alike _ _ hI.1, ← hbuf hI]
  have harrives : ∀ {s' r'}, I s' r' → r'.buf.length < r.size → r.Arrives r'.buf.length := by
    rintro s' r' ⟨-, -, hsize, -, hahead⟩ hlt
    exact ((hahead (hsize ▸ hlt) _).mp r'.arrives_self).1
  have hJ : L.Judged r.unread r.size r.src.last view (L.judgement view s) I := by
    refine ⟨fun s' r' hI => ⟨hI.2.2.1, by rw [hI.2.1], hI.2.2.2.1⟩, ?_, ?_, ?_, ?_⟩
    · intro s' r' v hI hv
      by_cases hlt : r'.buf.length < min r.size r.unread.length
      · exact h.stable _ hlt (harrives hI (by omega)) v hv
      · have hfits : r'.buf.length ≤ r.size := hI.2.2.1 ▸ r'.fits
        rw [← hv]
        congr 1
        rcases Nat.le_total r.size r.unread.length with hle | hle
        · rw [show r'.buf.length = r.size by omega]
        · rw [take_of_length_le hle, take_of_length_le (by omega)]
    · intro s' r' s'' mem k hI hp
      rw [hparse hI] at hp
      simp [judgement, hp]
    · intro s' r' s'' mem e hI hp hne
      rw [hparse hI] at hp
      simp [judgement, hp, hne]
    · intro s' r' s'' mem hI hp
      rw [hparse hI] at hp
      refine ⟨by simp [judgement, hp], fun hroom hps => ?_⟩
      obtain ⟨-, hu, hsize, hlast, hahead⟩ := id hI
      have hmore : r'.buf.length < r.unread.length := by
        have := length_pos_iff.mpr fun h => hps ((Source.items_eq_nil _).mp h)
        rw [← hu, Reader.unread, length_append]
        omega
      obtain ⟨hS, hmem⟩ := h.waits _ (by omega) (harrives hI (by omega)) s'' mem hp
      have hahead' := (hahead.fetch hroom hps rfl).1
      rw [hmem, ← hbuf hI, r'.overwrite_self]
      rw [r'.overwrite_self] at hahead'
      exact ⟨h.mono _ _ _ (Nat.le_of_lt (r'.fetch_buf_length hroom hps)) hS, by rw [r'.fetch_unread, hu], hsize, hlast, hahead'⟩
  refine read_judged hJ hL s r rfl rfl rfl hnil (fun _ => ⟨h.start _, rfl, rfl, rfl, r.ahead_self⟩) fun hb hps => ?_
  have hahead := (r.ahead_self.fetch (b := r.buf) (by simpa [hb] using r.pos) hps rfl).1
  rw [r.overwrite_self] at hahead
  exact ⟨h.start _, r.fetch_unread, rfl, rfl, hahead⟩

/-! ## What earlier runs left behind -/

/-- The runs so far: each asked for more, and they have left no trace just if none was made on items that leave one. -/
structure History (r₀ : Reader α ε) (judge : List α → Option (Except ε β)) (clean : Nat → Prop) (untouched : Prop) (r : Reader α ε) :
    Prop where
  ahead : r₀.Ahead r
  undecided : ∀ n, r₀.Arrives n → n < r.buf.length → judge (r₀.unread.take n) = none
  traces : untouched ↔ ∀ n, r₀.Arrives n → n < r.buf.length → clean n

omit [DecidableEq ε] in
theorem History.step {r₀ r : Reader α ε} {clean : Nat → Prop} {untouched untouched' : Prop} (h : History r₀ judge clean untouched r)
    (hroom : r.buf.length < r.size) (hp : r.src.pieces ≠ []) {mem : List α} (hlen : mem.length = r.buf.length)
    (hj : judge (r₀.unread.take r.buf.length) = none) (hclean : untouched' ↔ untouched ∧ clean r.buf.length) :
    History r₀ judge clean untouched' (r.overwrite mem).fetch := by
  obtain ⟨hahead, harrives, hbetween⟩ := h.ahead.fetch hroom hp hlen
  have hgrow : r.buf.length < (r.overwrite mem).fetch.buf.length := by
    have hbuf : (r.overwrite mem).buf.length = r.buf.length := by rw [r.overwrite_buf hlen, hlen]
    have hgrow := (r.overwrite mem).fetch_buf_length (by rw [hbuf]; exact hroom) hp
    rwa [hbuf] at hgrow
  refine ⟨hahead, fun n hn hlt => ?_, hclean.trans ?_⟩
  · rcases hbetween n hn hlt with hlt | rfl
    · exact h.undecided n hn hlt
    · exact hj
  · rw [h.traces]
    constructor
    · rintro ⟨hpast, hlast⟩ n hn hlt
      rcases hbetween n hn hlt with hlt | rfl
      · exact hpast n hn hlt
      · exact hlast
    · intro hall
      exact ⟨fun n hn hlt => hall n hn (by omega), hall r.buf.length harrives hgrow⟩

end Loop

end Retry
