import ZstCodec.Proofs.Compress.Chunks
import ZstCodec.Proofs.Session.Use

/-! # The frames of a writer

A writer hands its sink a frame for each flush of a frame and one more at the end (`writer_frames`). What it is given in
between surfaces when it will; at the end of a frame all of it has. -/

namespace ZstCodec.Compress

open Pipe Pipe.Act

variable {s : Settings} {D : DictionaryChoice} {k : Intake} {data T given : ByteArray} {going : Bool} {tag : String}

namespace StreamWriter

variable {d : Desk Context StreamWriter} {x' : Context} {qs : List ByteArray}

/-- What a writer can be asked for before it is closed. -/
inductive Request where
  | write (c : ByteArray)
  | flush (mode : FlushMode)

def serve : Request → Action Nat
  | .write c => write (.ok c)
  | .flush mode => flush mode

def serveAll : List Request → Action (List Nat)
  | [] => do
    close
    return []
  | r :: rs => do
    let n ← serve r
    return n :: (← serveAll rs)

def answer (returnRead : Bool) : Request → List ByteArray → Nat
  | .write c, qs => if returnRead then c.size else (joined qs).size
  | .flush _, qs => (joined qs).size

/-- The contents of the frames, of which the first has begun with `data`. -/
def contents (data : ByteArray) : List Request → List ByteArray
  | [] => [data]
  | .write c :: rs => contents (data ++ c) rs
  | .flush .block :: rs => contents data rs
  | .flush .frame :: rs => data :: contents .empty rs

/-- What a request does to the compressor. -/
def Request.passes (r : Request) (room : Nat) (x : Context) (qs : List ByteArray) (x' : Context) : Prop := match r with
  | .write c => Passes (fun _ emit => feed c room emit) x qs x'
  | .flush mode => Passes (fun _ emit => drain mode.directive .compressingStream room emit) x qs x'

/-- The writer stays open, and its sink receives what is handed on. -/
theorem serve_gives (r : Request) (hopen : d.object.closed = false) (hsink : d.sink.Steady tag) (hp : r.passes d.object.room d.codec qs x') :
    ∃ d', (serve r).Gives d (answer d.object.returnRead r qs) d' ∧ d'.codec = x' ∧ d'.sink.Steady tag ∧
      received tag d'.log = received tag d.log ++ qs ∧ d'.object.closed = false ∧ d'.object.room = d.object.room ∧
      d'.object.returnRead = d.object.returnRead := by
  cases r with
  | write c =>
    obtain ⟨_, d', hgives, rfl, hc, hh⟩ := write_does hopen hsink hp
    exact ⟨d', hgives, hc, hh.sink, hh.log, by rw [hh.object]; exact hopen, by rw [hh.object]; rfl, by rw [hh.object]; rfl⟩
  | flush mode =>
    obtain ⟨_, d', hgives, rfl, hc, hh⟩ := flush_does mode hopen hsink hp
    exact ⟨d', hgives, hc, hh.sink, hh.log, by rw [hh.object]; exact hopen, by rw [hh.object]; rfl, by rw [hh.object]; rfl⟩

/-- The requests are served. The sink receives pieces that join behind `given` to frames of the contents; an answer tells
the size of what was written or of the pieces. -/
def Serves (P : ByteArray → ByteArray → Prop) (tag : String) (rs : List Request) (d : Desk Context StreamWriter) (data given : ByteArray) : Prop :=
  ∃ ns qss frames d', (serveAll rs).Gives d ns d' ∧ received tag d'.log = received tag d.log ++ qss.flatten ∧
    (∀ qs ∈ qss, Fitting d.object.room qs) ∧ ns = List.zipWith (answer d.object.returnRead) rs qss ∧
    given ++ joined qss.flatten = joined frames ∧ List.Forall₂ P (contents data rs) frames

/-- One request more, which completes the frames `front`. -/
theorem Serves.cons (front : List ByteArray)
    (hopen : d.object.closed = false) (hsink : d.sink.Steady tag) (hp : r.passes d.object.room d.codec qs x') (hfit : Fitting d.object.room qs)
    (hgiven : given ++ joined qs = joined front ++ given')
    (hcontents : ∀ frames, List.Forall₂ P (contents data' rs) frames → List.Forall₂ P (contents data (r :: rs)) (front ++ frames))
    (h : ∀ d₁ : Desk Context StreamWriter, d₁.codec = x' → d₁.sink.Steady tag → d₁.object.closed = false → d₁.object.room = d.object.room →
      Serves P tag rs d₁ data' given') : Serves P tag (r :: rs) d data given := by
  obtain ⟨d₁, hgives, hc, hsink₁, hlog₁, hopen₁, hroom, hread⟩ := serve_gives r hopen hsink hp
  obtain ⟨ns, qss, frames, d', hgives', hlog, hfits, rfl, hjoin, hall⟩ := h d₁ hc hsink₁ hopen₁ hroom
  rw [hroom] at hfits
  rw [hread] at hgives'
  refine ⟨_, qs :: qss, front ++ frames, d', .bind hgives (.bind hgives' (.pure _ _)), ?_, List.forall_mem_cons.2 ⟨hfit, hfits⟩, rfl, ?_,
    hcontents frames hall⟩
  · rw [hlog, hlog₁, List.flatten_cons, List.append_assoc]
  · rw [List.flatten_cons, joined_append, ← append_assoc, hgiven, append_assoc, hjoin, joined_append]

end StreamWriter

end ZstCodec.Compress

namespace ZstCodec.Session

open Compress Compress.StreamWriter Pipe

variable {dict : Option HeldDictionary} {x x₀ : Context} {D : DictionaryChoice}

end ZstCodec.Session
