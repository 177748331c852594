import Fasthttp.Response.Close
import Fasthttp.Server.Conn

/-!
# Announced closes

A response that says `Connection: close` should be the last one on its connection.
-/

namespace Fasthttp

open Bufio

namespace Server

variable {s : Server} {c : ServerConn} {x : Turn}

/-- A `Connection: close` that nobody has asked for: the body ends with the connection, or some other value holds such
a line. -/
def SaysClose (s : Server) (h : RequestHeader) (x : Turn) : Prop :=
  (s.reply h x).endsWithConn = true ∨ (s.reply h x).sentHeader.1.OtherLine x.date (s.reply h x).sentHeader.2

def Told (s : Server) (c : Option ServerConn) (x : Turn) : Prop :=
  match c with
  | none => True
  | some c =>
    match (s.receive c x).2 with
    | none => True
    | some r => s.Ends r.header x ∨ ¬ s.SaysClose r.header x

def Honours (s : Server) (c : Option ServerConn) (x : Turn) : Prop :=
  match c with
  | none => True
  | some c => (∃ b ∈ (s.round c x).sent, AnnouncesClose b) → (s.round c x).next = none

theorem receive_sent {r : Received} (h : (s.receive c x).2 = some r) : ∀ b ∈ (s.receive c x).1, ¬ AnnouncesClose b := by
  have hinterim : ¬ AnnouncesClose strResponseContinue := by decide +kernel
  obtain ⟨hd, -, -, -, -, hcont, hsent, -⟩ := receive_some h
  rw [hsent]
  unfold continues at hcont ⊢
  split
  · rename_i hmay
    simp only [hmay, if_true] at hcont
    simp [hcont, hinterim]
  · simp

theorem reply_announces {h : RequestHeader} (hclose : s.closing h x = false) :
    AnnouncesClose ((s.reply h x).write x.date).block ↔ s.SaysClose h x := by
  have hflag : (s.reply h x).header.connectionClose = false := hclose
  rw [OutResponse.write_announces, OutResponse.sentHeader_close, hflag]
  rfl

theorem honours_iff_told (s : Server) (c : Option ServerConn) (x : Turn) : s.Honours c x ↔ s.Told c x := by
  rcases c with _ | c
  · exact Iff.rfl
  unfold Honours Told round
  rcases hr : s.receive c x with ⟨sent, _ | r⟩
  · simp [hr]
  have hquiet : ∀ b ∈ sent, ¬ AnnouncesClose b := by
    have := receive_sent (s := s) (c := c) (x := x) (r := r) (by rw [hr])
    rwa [hr] at this
  simp only [hr]
  by_cases hends : s.Ends r.header x
  · simp [hends, respond_ends hends]
  · have hclose : s.closing r.header x = false := by
      simp only [Ends, not_or, Bool.not_eq_true] at hends
      exact hends.1
    simp only [respond_stays hends, hends, false_or, ← reply_announces hclose]
    constructor
    · simp
    · rintro h ⟨b, hb, hann⟩
      rcases List.mem_append.mp hb with hb | hb
      · exact absurd hann (hquiet b hb)
      · rw [List.mem_singleton.mp hb] at hann
        exact absurd hann h

/-- In a run of rounds every announced close is honoured exactly if no round that could be followed
by another one writes a header block that says `Connection: close`. -/
theorem announced_close_iff (s : Server) (c : Option ServerConn) (xs : List Turn) :
    s.machine.Along s.Honours c xs ↔ s.machine.Along s.Told c xs := by
  exact ⟨.mono fun c x => (s.honours_iff_told c x).mp, .mono fun c x => (s.honours_iff_told c x).mpr⟩

def twoGets : ServerConn :=
  plain.accept (.of [["GET /a HTTP/1.1\r\nHost: h\r\n\r\n", "GET /b HTTP/1.1\r\nHost: h\r\n\r\n"].flatMap ascii] .eof)

def untilClose : Turn := answers { ResponseHeader.zero with contentLength := -2, noDefaultDate := true } (ascii "x")

/-- The response announces the close of the connection, and the next request is read from it and
handled. -/
theorem served_behind_announced_close :
    (plain.round twoGets untilClose).sent
      = [["HTTP/1.1 200 OK\r\n", "Content-Type: text/plain; charset=utf-8\r\n", "Connection: close\r\n\r\n"].flatMap ascii] ∧
    ((plain.round twoGets untilClose).next.bind fun c => (plain.receive c untilClose).2.map fun r => r.header.requestURI)
      = some (ascii "/b") ∧
    ¬ plain.machine.Along plain.Honours (some twoGets) [untilClose] := by
  have hround : (∃ b ∈ (plain.round twoGets untilClose).sent, AnnouncesClose b) ∧
      (plain.round twoGets untilClose).next.isSome = true := by
    decide +kernel
  refine ⟨by decide +kernel, by decide +kernel, ?_⟩
  rintro ⟨hgood, -⟩
  simp [hgood rfl hround.1] at hround

end Server

end Fasthttp
