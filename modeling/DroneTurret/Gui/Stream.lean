import DroneTurret.Gui.Mjpeg
import DroneTurret.Vision.Snapshots

/-!
# The picture stream

From `latest_frame` to the pictures that the window shows: `mjpeg_gen` of the vision programs sends
the frame there is, as often as it is asked, and `MjpegClient` cuts what arrives. The inference
loop runs on its own, so a frame may be sent twice or not at all; the bytes arrive in pieces of any
size; and a connection may be closed and opened at any time, with a picture half sent.

`cv2.imencode` is a parameter. It may fail, and what it returns is a picture between the markers of
one.

## Main definitions

* `mjpegPart` — what `mjpeg_gen` yields for a picture
* `viewing` — the inference loop, the generator, the connection and the client

## Main results

* `stream_spec` — what is shown is what was sent, after a reopened connection up to one picture
-/

namespace DroneTurret

namespace Gui

open CString Markers Vision

/-- A JPEG file: what is between its two markers. -/
structure Jpeg where
  body : List Byte
  deriving DecidableEq

/-- `buf.tobytes()`. -/
def Jpeg.tobytes (j : Jpeg) : List Byte := soiMarker ++ j.body ++ eoiMarker

/-- What `mjpeg_gen` sends around a picture. -/
def mjpegEnvelope : Envelope jpeg where
  pre := bytes "--frame\r\nContent-Type: image/jpeg\r\n\r\n"
  post := bytes "\r\n"
  start_notMem := by decide +kernel
  stop_notMem := by decide +kernel
  stop_ne := List.cons_ne_nil _ _
  fresh := ⟨45, by decide⟩
  clear t u v h := by
    -- neither byte of the start marker begins an end marker
    rcases u with _ | ⟨a, _ | ⟨b, u⟩⟩
    · cases h
    · cases h
    · exact Nat.le_add_left _ _

/-- What `mjpeg_gen` yields. -/
def mjpegPart (j : Jpeg) : List Byte :=
  bytes "--frame\r\nContent-Type: image/jpeg\r\n\r\n" ++ j.tobytes ++ bytes "\r\n"

/-- The two programs, and what is between them. -/
structure Viewing (ι : Type*) where
  /-- All that the inference loop has assigned to `latest_frame`, in order. -/
  frames : List ι
  latestFrame : Option (Stamped ι)
  /-- What the connection that is open has not delivered yet. -/
  reply : Option (List Byte)
  /-- What the generator of the last connection has yielded. -/
  yielded : List (Stamped Jpeg)
  /-- `buffer_`, and what it was when the last connection was opened. -/
  buffer : List Byte
  left : List Byte
  /-- The pictures found since the last connection was opened. -/
  decoded : List (List Byte)

inductive ViewingStep (ι : Type*)
  /-- The inference loop assigns to `latest_frame`. -/
  | publish (vis : ι)
  /-- A round of the loop of `mjpeg_gen`. -/
  | poll
  /-- The slot runs when `n` more bytes are there. -/
  | readyRead (n : ℕ)
  | start
  | stop

namespace Viewing

variable {ι : Type*} (imencode : ι → Option Jpeg)

def fresh : Viewing ι := ⟨[], none, none, [], [], [], []⟩

def publish (s : Viewing ι) (vis : ι) : Viewing ι :=
  { s with frames := s.frames ++ [vis], latestFrame := some ⟨vis, s.frames.length⟩ }

/-- `mjpeg_gen` has nothing to yield without a frame, or when it is not encoded. -/
def poll (s : Viewing ι) (reply : List Byte) : Viewing ι :=
  match s.latestFrame with
  | none => s
  | some frame =>
    match imencode frame.val with
    | none => s
    | some buf =>
      { s with reply := some (reply ++ mjpegPart buf), yielded := s.yielded ++ [⟨buf, frame.iter⟩] }

/-- `onReadyRead`. -/
def receive (s : Viewing ι) (reply : List Byte) (n : ℕ) : Viewing ι :=
  let r := MjpegClient.onReadyRead id s.buffer (reply.take n)
  { s with reply := some (reply.drop n), buffer := r.2, decoded := s.decoded ++ r.1 }

/-- A new connection, with a generator of its own. -/
def start (s : Viewing ι) : Viewing ι :=
  { s with reply := some [], yielded := [], left := s.buffer, decoded := [] }

def stop (s : Viewing ι) : Viewing ι := { s with reply := none }

def step (s : Viewing ι) : ViewingStep ι → Option (Viewing ι)
  | .publish vis => some (s.publish vis)
  | .poll => s.reply.map fun reply => s.poll imencode reply
  | .readyRead n => s.reply.map fun reply => s.receive reply n
  | .start => some s.start
  | .stop => some s.stop

/-- What has been sent on the last connection. -/
def pictures (s : Viewing ι) : List (List Byte) := s.yielded.map fun y => y.val.tobytes

end Viewing

/-- The stream, under any interleaving. -/
def viewing {ι : Type*} (imencode : ι → Option Jpeg) : Transition (Viewing ι) (ViewingStep ι) where
  init s := s = .fresh
  step := Viewing.step imencode

namespace Viewing

variable {ι : Type*} {imencode : ι → Option Jpeg}

/-- The part of a picture is its envelope's. -/
theorem flatMap_mjpegPart (ys : List (Stamped Jpeg)) :
    (ys.flatMap fun y => mjpegPart y.val) =
      (ys.map fun y => y.val.body).flatMap mjpegEnvelope.part := by
  rw [List.flatMap_map]
  rfl

/-- A round of `mjpeg_gen` yields nothing, or the picture of the frame there is. -/
theorem poll_cases (imencode : ι → Option Jpeg) (s : Viewing ι) (reply : List Byte) :
    s.poll imencode reply = s ∨ ∃ f buf, s.latestFrame = some f ∧ imencode f.val = some buf ∧
      s.poll imencode reply = { s with
        reply := some (reply ++ mjpegPart buf), yielded := s.yielded ++ [⟨buf, f.iter⟩] } := by
  cases hf : s.latestFrame with
  | none =>
    rw [poll, hf]
    exact .inl rfl
  | some f =>
    cases henc : imencode f.val with
    | none =>
      rw [poll, hf]
      dsimp only
      rw [henc]
      exact .inl rfl
    | some buf =>
      refine .inr ⟨f, buf, rfl, henc, ?_⟩
      rw [poll, hf]
      dsimp only
      rw [henc]

/-- What the generator has sent is of frames that were there, none of an earlier one behind that of
a later one. -/
structure Sent (imencode : ι → Option Jpeg) (s : Viewing ι) : Prop where
  latest : ∀ f ∈ s.latestFrame, s.frames[f.iter]? = some f.val ∧ ∀ y ∈ s.yielded, y.iter ≤ f.iter
  none : s.latestFrame = none → s.yielded = []
  sorted : s.yielded.Pairwise fun x y => x.iter ≤ y.iter
  sound : ∀ y ∈ s.yielded, ∃ vis, s.frames[y.iter]? = some vis ∧ imencode vis = some y.val

/-- The stream of the connection, cut into what has been found and what will be. -/
structure Divided (s : Viewing ι) : Prop where
  buffer : Markers.frames jpeg s.buffer = []
  left : Markers.frames jpeg s.left = []
  conn : ∀ reply ∈ s.reply, ∀ x,
    Markers.frames jpeg (s.left ++ (s.yielded.flatMap fun y => mjpegPart y.val) ++ x) =
      s.decoded ++ Markers.frames jpeg (s.buffer ++ reply ++ x)

theorem Sent.step {s t : Viewing ι} (h : Sent imencode s) {a : ViewingStep ι}
    (ht : s.step imencode a = some t) : Sent imencode t := by
  cases a with
  | publish vis =>
    obtain rfl := Option.some.inj ht
    have hlt : ∀ y ∈ s.yielded, y.iter < s.frames.length := fun y hy => by
      obtain ⟨f, hf, -⟩ := h.sound y hy
      exact (List.getElem?_eq_some_iff.mp hf).1
    refine ⟨fun f hf => ?_, nofun, h.sorted, fun y hy => ?_⟩
    · obtain rfl := Option.some.inj hf
      exact ⟨List.getElem?_concat_length, fun y hy => (hlt y hy).le⟩
    · obtain ⟨f, hf, henc⟩ := h.sound y hy
      exact ⟨f, by rw [publish, List.getElem?_append_left (hlt y hy)]; exact hf, henc⟩
  | poll =>
    obtain ⟨reply, -, rfl⟩ := Option.map_eq_some_iff.mp ht
    rcases poll_cases imencode s reply with heq | ⟨f, buf, hf, henc, heq⟩
    · rwa [heq]
    · obtain ⟨hframe, hle⟩ := h.latest f hf
      rw [heq]
      refine ⟨fun f' hf' => ?_, fun hnone => ?_, ?_, ?_⟩
      · obtain rfl := Option.some.inj (hf.symm.trans hf')
        refine ⟨hframe, List.forall_mem_append.mpr ⟨hle, ?_⟩⟩
        exact List.forall_mem_singleton.mpr le_rfl
      · cases hf.symm.trans hnone
      · refine List.pairwise_append.mpr ⟨h.sorted, List.pairwise_singleton _ _, ?_⟩
        exact fun y hy z hz => List.eq_of_mem_singleton hz ▸ hle y hy
      · refine List.forall_mem_append.mpr ⟨h.sound, ?_⟩
        exact List.forall_mem_singleton.mpr ⟨f.val, hframe, henc⟩
  | readyRead n =>
    obtain ⟨reply, -, rfl⟩ := Option.map_eq_some_iff.mp ht
    exact ⟨h.latest, h.none, h.sorted, h.sound⟩
  | start =>
    obtain rfl := Option.some.inj ht
    exact ⟨fun f hf => ⟨(h.latest f hf).1, nofun⟩, fun _ => rfl, List.Pairwise.nil, nofun⟩
  | stop =>
    obtain rfl := Option.some.inj ht
    exact ⟨h.latest, h.none, h.sorted, h.sound⟩

theorem Divided.step {s t : Viewing ι} (h : Divided s) {a : ViewingStep ι}
    (ht : s.step imencode a = some t) : Divided t := by
  cases a with
  | publish vis =>
    obtain rfl := Option.some.inj ht
    exact ⟨h.buffer, h.left, h.conn⟩
  | poll =>
    obtain ⟨reply, hreply, rfl⟩ := Option.map_eq_some_iff.mp ht
    rcases poll_cases imencode s reply with heq | ⟨f, buf, -, -, heq⟩
    · rwa [heq]
    · rw [heq]
      refine ⟨h.buffer, h.left, fun reply' hreply' x => ?_⟩
      obtain rfl := Option.some.inj hreply'
      have hcut := h.conn reply hreply (mjpegPart buf ++ x)
      rw [List.flatMap_append, List.flatMap_singleton]
      simpa only [List.append_assoc] using hcut
  | readyRead n =>
    obtain ⟨reply, hreply, rfl⟩ := Option.map_eq_some_iff.mp ht
    obtain ⟨hnone, hscan⟩ := @MjpegClient.frames_of_scan Byte id _ _
      (Nat.le_refl (s.buffer ++ reply.take n).length)
    simp only [List.map_id, List.map_id_fun] at hnone hscan
    refine ⟨hnone, h.left, fun reply' hreply' x => ?_⟩
    obtain rfl := Option.some.inj hreply'
    have hcut := h.conn reply hreply x
    have hsplit : s.buffer ++ reply ++ x = s.buffer ++ reply.take n ++ (reply.drop n ++ x) := by
      rw [List.append_assoc, List.append_assoc, ← List.append_assoc (reply.take n),
        List.take_append_drop]
    rw [hsplit, hscan] at hcut
    rw [receive, MjpegClient.onReadyRead]
    dsimp only
    rw [hcut]
    simp only [List.append_assoc]
  | start =>
    obtain rfl := Option.some.inj ht
    refine ⟨h.buffer, h.buffer, fun reply hreply x => ?_⟩
    obtain rfl := Option.some.inj hreply
    rfl
  | stop =>
    obtain rfl := Option.some.inj ht
    exact ⟨h.buffer, h.left, fun _ hnone => by cases hnone⟩

theorem sent_and_divided {s : Viewing ι} (h : (viewing imencode).Reachable s) :
    Sent imencode s ∧ Divided s := by
  refine h.invariant (fun s => Sent imencode s ∧ Divided s) (fun s hs => ?_)
    fun s a t hs _ ht => ⟨hs.1.step ht, hs.2.step ht⟩
  obtain rfl : s = .fresh := hs
  exact ⟨⟨nofun, fun _ => rfl, List.Pairwise.nil, nofun⟩, frames_nil jpeg, frames_nil jpeg, nofun⟩

/-- What the client has found is the first of what it finds once everything is delivered. -/
theorem Divided.decoded {s : Viewing ι} (h : Divided s) {reply : List Byte}
    (hreply : s.reply = some reply) :
    Markers.frames jpeg (s.left ++ (s.yielded.map fun y => y.val.body).flatMap mjpegEnvelope.part) =
      s.decoded ++ Markers.frames jpeg (s.buffer ++ reply) := by
  have hcut := h.conn reply hreply []
  rwa [List.append_nil, List.append_nil, flatMap_mjpegPart] at hcut

end Viewing

/-- **The stream.** What is sent on a connection is of frames that the inference loop has finished,
in order. While no picture that is sent has an end marker inside, the client finds no more than what
was sent, all in order, but the first may be damaged by what an earlier connection has left in the
buffer; nothing is missing once everything is delivered. With no start marker left in the buffer it
is all the same exactly if no picture has an end marker inside. -/
theorem stream_spec {ι : Type*} {imencode : ι → Option Jpeg} {s : Viewing ι}
    (h : (viewing imencode).Reachable s) :
    (s.yielded.Pairwise (fun x y => x.iter ≤ y.iter) ∧
      ∀ y ∈ s.yielded, ∃ vis, s.frames[y.iter]? = some vis ∧ imencode vis = some y.val) ∧
    ∀ reply, s.reply = some reply →
      ((∀ y ∈ s.yielded, Whole jpeg y.val.body) →
        s.decoded.length ≤ s.pictures.length ∧ s.decoded.tail <+: s.pictures.tail ∧
          (reply = [] → s.decoded.length = s.pictures.length)) ∧
      (¬soiMarker <:+: s.left → reply = [] →
        (s.decoded = s.pictures ↔ ∀ y ∈ s.yielded, Whole jpeg y.val.body)) := by
  obtain ⟨hsent, hcut⟩ := Viewing.sent_and_divided h
  refine ⟨⟨hsent.sorted, hsent.sound⟩, fun reply hreply => ?_⟩
  have hdecoded := hcut.decoded hreply
  have hpictures : s.pictures =
      (s.yielded.map fun y => y.val.body).map fun w => soiMarker ++ w ++ eoiMarker := by
    rw [List.map_map]
    rfl
  have hwhole : (∀ w ∈ s.yielded.map fun y => y.val.body, Whole jpeg w) ↔
      ∀ y ∈ s.yielded, Whole jpeg y.val.body := List.forall_mem_map
  obtain ⟨hclean, hstep⟩ := mjpegEnvelope.frames_append_flatMap_part hcut.left
    (s.yielded.map fun y => y.val.body)
  have hend : reply = [] → s.decoded = Markers.frames jpeg
      (s.left ++ (s.yielded.map fun y => y.val.body).flatMap mjpegEnvelope.part) := by
    rintro rfl
    rw [hdecoded, List.append_nil, hcut.buffer, List.append_nil]
  constructor
  · intro hall
    obtain ⟨hlength, htail⟩ := hstep (hwhole.mpr hall)
    have hlen : s.pictures.length =
        (s.decoded ++ Markers.frames jpeg (s.buffer ++ reply)).length := by
      rw [← hdecoded, hlength, hpictures, List.length_map]
    refine ⟨?_, ?_, fun hnil => ?_⟩
    · rw [hlen, List.length_append]
      exact Nat.le_add_right _ _
    · rw [hpictures]
      refine htail ▸ ?_
      rw [hdecoded]
      cases s.decoded with
      | nil => exact List.nil_prefix
      | cons f fs => exact List.prefix_append _ _
    · rw [hend hnil, hlength, Viewing.pictures, List.length_map, List.length_map]
  · intro hleft hnil
    rw [hend hnil, hpictures, ← hwhole]
    refine hclean (cut_eq_none_iff.mpr fun u v heq => hleft ⟨u, v, heq.symm⟩)

/-- A connection that is closed with a picture half delivered, and the next one. -/
theorem stream_spec_witness :
    ∃ s, (viewing fun n : Byte => some ⟨[n]⟩).Reachable s ∧ s.reply = some [] ∧
      s.decoded.length = s.pictures.length ∧ s.decoded ≠ s.pictures := by
  obtain ⟨s, hs, hp⟩ := Transition.exists_reach_of_run (viewing fun n : Byte => some ⟨[n]⟩)
    (fun _ _ => True) rfl
    [.start, .publish 1, .poll, .readyRead 40, .stop, .start, .poll, .publish 2, .poll,
      .readyRead 100]
    (fun s => decide (s.reply = some [] ∧ (∀ y ∈ s.yielded, Whole jpeg y.val.body) ∧
      s.decoded ≠ s.pictures)) (by decide +kernel)
  obtain ⟨hreply, hwhole, hne⟩ := of_decide_eq_true hp
  exact ⟨s, hs, hreply, (((stream_spec hs).2 [] hreply).1 hwhole).2.2 rfl, hne⟩

end Gui

end DroneTurret
