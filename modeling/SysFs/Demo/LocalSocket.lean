import Mathlib.Algebra.BigOperators.Group.List.Basic
import Mathlib.Algebra.Order.Ring.Nat
import SysFs.Lib.Steps
import SysFs.Base.Strings

/-!
# The local socket demo

The two programs of `localSocketDemo` talk over one stream socket.  The client sends a
word that the user types, reads once, and goes on until its buffer starts with `~`.  The
server answers whatever it reads with a fixed text, and hangs up after a read that
starts with `~`.  Neither looks for the end of a word, so what happens depends on how
much each read gets.

A `Session` is where the two programs are, what they have logged, and what the socket
holds in each direction.  `Step gives` is one step of one of them, in any order; `gives`
says what a read may return.  A connection that is refused or broken is modelled, a
socket that the system does not give to the server is not.  A read of the server that
returns nothing changes nothing and is no step.

The user may close the input behind the words.  Then `std::cin >> buffer` leaves the
buffer as it was: the client sends its last answer again, and so on without end, or
nothing at all when there was no word.

* `bytes_arrive`: with any reads and in any order, everything the server has read is what
  the client sent, without loss, doubling or change of order, the client gets the answers
  likewise, and it never stops before the server.
* `session_progress`: no run goes on for ever unless the input is closed, and there is no
  deadlock unless it is closed without a word.
* `session_lockstep`: when a read returns all there is, the two run in lockstep: each
  word is logged as a whole and answered once, and a word that starts with `~` ends both.
-/

namespace SysFs.Demo

open Base

/-- The size of the buffers. -/
def MAX_BUF : ℕ := 100

/-- What the user types: a word that fits into the buffer.  A longer one would be written
beyond its end. -/
structure Word where
  text : Str
  ne_nil : text ≠ []
  fits : text.length < MAX_BUF
  plain : Char.ofNat 0 ∉ text

/-- The answer of the server. -/
def reply : Str := "Hello Client Message Recieved\n".toList

/-- Where the client is.  `refused` is after a failed `socket_local_client`, `killed` after
a write to a closed socket. -/
inductive ClientAt where
  | starting
  | refused
  | typing
  | sending
  | waiting
  | finished
  | killed
deriving DecidableEq, Repr

/-- Where the server is. -/
inductive ServerAt where
  | starting
  | accepting
  | reading
  | replying
  | finished
  | killed
deriving DecidableEq, Repr

/-- The socket of the client is closed. -/
def ClientAt.closed : ClientAt → Bool
  | finished | killed => true
  | _ => false

/-- The client has a connection, or had one. -/
def ClientAt.connected : ClientAt → Bool
  | starting | refused => false
  | _ => true

/-- The socket of the server is closed. -/
def ServerAt.closed : ServerAt → Bool
  | finished | killed => true
  | _ => false

/-- The two programs and the socket between them. -/
structure Session where
  /-- what the user will type -/
  words : List Word
  /-- the input ends behind the words -/
  closes : Bool
  client : ClientAt
  /-- `buffer` of the client -/
  buffer : Str
  /-- the messages that the client logged -/
  clientLog : List Str
  server : ServerAt
  /-- the messages that the server logged -/
  serverLog : List Str
  /-- everything that the client sent -/
  sent : Str
  /-- what was sent to the server and not read yet -/
  toServer : Str
  /-- what was sent to the client and not read yet -/
  toClient : Str

/-- Before both programs start. -/
def Session.start (words : List Word) (closes : Bool) : Session where
  words := words
  closes := closes
  client := .starting
  buffer := []
  clientLog := []
  server := .starting
  serverLog := []
  sent := []
  toServer := []
  toClient := []

/-- What any read of at most `MAX_BUF - 1` bytes returns. -/
def Gives (queue chunk : Str) : Prop :=
  chunk ≠ [] ∧ chunk <+: queue ∧ chunk.length ≤ MAX_BUF - 1

/-- What a read returns that gets all there is. -/
def GivesAll (queue chunk : Str) : Prop := queue ≠ [] ∧ chunk = queue.take (MAX_BUF - 1)

/-- The condition at the end of the client's loop. -/
def afterLoop (buffer : Str) : ClientAt := if buffer.head? = some '~' then .finished else .typing

/-- The steps of the two programs. -/
inductive Step (gives : Str → Str → Prop) : Session → Session → Prop
  /-- `socket_local_server` -/
  | listen {s} (hserver : s.server = .starting) : Step gives s { s with server := .accepting }
  /-- `accept` -/
  | accept {s} (hserver : s.server = .accepting) (hclient : s.client.connected = true) :
      Step gives s { s with server := .reading }
  /-- `socket_local_client`, before there is a server -/
  | refuse {s} (hclient : s.client = .starting) (hserver : s.server = .starting) :
      Step gives s { s with client := .refused }
  /-- `socket_local_client` -/
  | connect {s} (hclient : s.client = .starting) (hserver : s.server = .accepting) :
      Step gives s { s with client := .typing }
  /-- `std::cin >> buffer` -/
  | type {s w ws} (hclient : s.client = .typing) (hwords : s.words = w :: ws) :
      Step gives s { s with words := ws, buffer := w.text, client := .sending }
  /-- the same at the end of the input, which leaves the buffer alone -/
  | typeFails {s} (hclient : s.client = .typing) (hwords : s.words = [])
      (hcloses : s.closes = true) : Step gives s { s with client := .sending }
  /-- `write` of the client -/
  | send {s} (hclient : s.client = .sending) (hserver : s.server.closed = false) :
      Step gives s { s with
        sent := s.sent ++ cString s.buffer
        toServer := s.toServer ++ cString s.buffer
        client := .waiting }
  /-- the same to a closed socket -/
  | sigpipe {s} (hclient : s.client = .sending) (hserver : s.server.closed = true) :
      Step gives s { s with client := .killed }
  /-- `read` of the client, and the end of its loop -/
  | receive {s chunk rest} (hclient : s.client = .waiting) (hqueue : s.toClient = chunk ++ rest)
      (hgives : gives s.toClient chunk) :
      Step gives s { s with
        toClient := rest
        buffer := chunk
        clientLog := s.clientLog ++ [cString chunk]
        client := afterLoop chunk }
  /-- the same when nothing comes any more -/
  | hangup {s} (hclient : s.client = .waiting) (hqueue : s.toClient = [])
      (hserver : s.server.closed = true) : Step gives s { s with client := afterLoop s.buffer }
  /-- `read` of the server, of a message -/
  | take {s chunk rest} (hserver : s.server = .reading) (hqueue : s.toServer = chunk ++ rest)
      (hgives : gives s.toServer chunk) (hmessage : chunk.head? ≠ some '~') :
      Step gives s { s with
        toServer := rest
        serverLog := s.serverLog ++ [cString chunk]
        server := .replying }
  /-- `read` of the server, of the sign to stop -/
  | stop {s chunk rest} (hserver : s.server = .reading) (hqueue : s.toServer = chunk ++ rest)
      (hgives : gives s.toServer chunk) (hmessage : chunk.head? = some '~') :
      Step gives s { s with toServer := rest, server := .finished }
  /-- `write` of the server -/
  | reply {s} (hserver : s.server = .replying) (hclient : s.client.closed = false) :
      Step gives s { s with toClient := s.toClient ++ reply, server := .reading }
  /-- the same to a closed socket -/
  | serverSigpipe {s} (hserver : s.server = .replying) (hclient : s.client.closed = true) :
      Step gives s { s with server := .killed }

variable {gives : Str → Str → Prop} {W : List Word} {closes : Bool} {s s' : Session}

/-- The text of all words. -/
def textOf (words : List Word) : Str := words.flatMap Word.text

/-- What the client typed and did not send. -/
def Session.unsent (s : Session) : Str :=
  if s.client = .sending ∨ s.client = .killed then s.buffer else []

/-- What the buffer of the client may hold: nothing, an answer, or a word. -/
def Session.Held (W : List Word) (s : Session) (text : Str) : Prop :=
  text = [] ∨ text ∈ s.clientLog ∨ text ∈ W.map Word.text

/-- The answer that the server is about to send. -/
def Session.pending (s : Session) : Str := if s.server = .replying then reply else []

/-- The texts that the socket carries. -/
structure Bytes (W : List Word) (s : Session) : Prop where
  /-- from the user to the client: what it sends are the words, and then `again`, when the
  input is closed behind them -/
  typed : ∃ again : List Str, textOf W ++ again.flatten = s.sent ++ s.unsent ++ textOf s.words ∧
    (again ≠ [] → s.closes = true ∧ s.words = []) ∧ ∀ text ∈ again, s.Held W text
  /-- from the client to the server, where `stop` is what made the server stop -/
  toServer : ∃ stop, s.sent = s.serverLog.flatten ++ stop ++ s.toServer ∧
    (stop = [] ∨ (s.server = .finished ∧ stop.head? = some '~'))
  /-- from the server to the client -/
  toClient : s.clientLog.flatten ++ s.toClient ++ s.pending
    = (List.replicate s.serverLog.length reply).flatten
  /-- what the server logged -/
  messages : ∀ message ∈ s.serverLog,
    message ≠ [] ∧ message.length < MAX_BUF ∧ message.head? ≠ some '~'
  /-- what the client logged -/
  answers : ∀ answer ∈ s.clientLog, answer ≠ [] ∧ answer.length < MAX_BUF
  /-- what is in the client's buffer -/
  buffer : s.Held W s.buffer
  /-- what is left of the words -/
  words : s.words <:+ W

/-- In which order the two programs get on. -/
structure Order (W : List Word) (s : Session) : Prop where
  /-- the client stops after the server only -/
  closed : s.client.closed = true → s.server = .finished
  alive : s.server ≠ .killed
  /-- there is no connection before the server listens, and none is accepted after a refusal -/
  unconnected : s.client.connected = false → s.server = .starting ∨ s.server = .accepting
  early : s.server = .starting → s.client.connected = false
  /-- a client that has sent something gets an answer -/
  answered : s.client = .waiting →
    s.toClient ≠ [] ∨ s.server = .replying ∨ s.server = .finished ∨ s.toServer ≠ [] ∨
      (W = [] ∧ s.closes = true)
  /-- the buffer is empty before the first word only -/
  filled : s.buffer ≠ [] ∨
    (s.words = W ∧ (s.client = .sending ∨ s.client = .waiting → W = [] ∧ s.closes = true))

theorem zero_notMem_replies (n : ℕ) : Char.ofNat 0 ∉ (List.replicate n reply).flatten := by
  intro h
  obtain ⟨l, hl, hmem⟩ := List.mem_flatten.1 h
  rw [List.eq_of_mem_replicate hl] at hmem
  exact absurd hmem (by decide)

theorem tilde_notMem_replies (n : ℕ) : '~' ∉ (List.replicate n reply).flatten := by
  intro h
  obtain ⟨l, hl, hmem⟩ := List.mem_flatten.1 h
  rw [List.eq_of_mem_replicate hl] at hmem
  exact absurd hmem (by decide)

theorem Bytes.start (W : List Word) (closes : Bool) : Bytes W (.start W closes) where
  typed := ⟨[], by simp [Session.start, Session.unsent], fun h => absurd rfl h, by simp⟩
  toServer := ⟨[], by simp [Session.start], Or.inl rfl⟩
  toClient := by simp [Session.start, Session.pending]
  messages := by simp [Session.start]
  answers := by simp [Session.start]
  buffer := Or.inl rfl
  words := List.suffix_rfl

/-- Nothing that the buffer may hold has a zero character in it. -/
theorem Bytes.held_plain (hb : Bytes W s) {text : Str} (h : s.Held W text) :
    Char.ofNat 0 ∉ text := by
  rcases h with rfl | h | h
  · exact List.not_mem_nil
  · intro hmem
    refine zero_notMem_replies s.serverLog.length ?_
    rw [← hb.toClient]
    exact List.mem_append_left _ (List.mem_append_left _ (List.mem_flatten.2 ⟨text, h, hmem⟩))
  · obtain ⟨w, -, rfl⟩ := List.mem_map.1 h
    exact w.plain

/-- The client writes the whole buffer. -/
theorem Bytes.cString_buffer (hb : Bytes W s) : cString s.buffer = s.buffer :=
  cString_of_notMem (hb.held_plain hb.buffer)

/-- Nothing that is under way has a zero character in it. -/
theorem Bytes.plain (hb : Bytes W s) :
    Char.ofNat 0 ∉ s.toServer ∧ Char.ofNat 0 ∉ s.toClient := by
  obtain ⟨stop, hsent, -⟩ := hb.toServer
  obtain ⟨again, htyped, -, hagain⟩ := hb.typed
  have hreplies := zero_notMem_replies s.serverLog.length
  rw [← hb.toClient] at hreplies
  simp only [List.mem_append, not_or] at hreplies
  have hwords : Char.ofNat 0 ∉ textOf W ++ again.flatten := by
    intro hmem
    rcases List.mem_append.1 hmem with h | h
    · obtain ⟨w, -, hw⟩ := List.mem_flatMap.1 h
      exact w.plain hw
    · obtain ⟨text, htext, hw⟩ := List.mem_flatten.1 h
      exact hb.held_plain (hagain text htext) hw
  rw [htyped, hsent] at hwords
  simp only [List.mem_append, not_or] at hwords
  exact ⟨hwords.1.1.2, hreplies.1.2⟩

theorem afterLoop_cases (buffer : Str) :
    afterLoop buffer = .finished ∨ afterLoop buffer = .typing := by
  rw [afterLoop]
  split
  · exact Or.inl rfl
  · exact Or.inr rfl

/-- A part of the answers does not start with the sign to stop. -/
theorem Bytes.afterLoop_eq (hb : Bytes W s) {chunk rest : Str}
    (hqueue : s.toClient = chunk ++ rest) : afterLoop chunk = .typing := by
  rw [afterLoop, if_neg]
  intro hhead
  refine tilde_notMem_replies s.serverLog.length ?_
  rw [← hb.toClient, hqueue]
  simp [List.mem_of_mem_head? hhead]

theorem Bytes.step (hgives : ∀ q c, gives q c → Gives q c) (hb : Bytes W s) (ho : Order W s)
    (h : Step gives s s') : Bytes W s' := by
  obtain ⟨hserver0, hclient0⟩ := hb.plain
  obtain ⟨again, htyped, hclosed, hagain⟩ := hb.typed
  obtain ⟨stop, hsent, hstop⟩ := hb.toServer
  have hanswered := hb.toClient
  -- A server that goes on has read nothing that makes it stop.
  have hnone : s.server ≠ .finished → stop = [] := fun hne => hstop.resolve_right fun h => hne h.1
  cases h with
  | listen hserver =>
    refine ⟨hb.typed, ⟨stop, hsent, Or.inl (hnone (by simp [hserver]))⟩, ?_, hb.messages,
      hb.answers, hb.buffer, hb.words⟩
    simpa [Session.pending, hserver] using hanswered
  | accept hserver hclient =>
    refine ⟨hb.typed, ⟨stop, hsent, Or.inl (hnone (by simp [hserver]))⟩, ?_, hb.messages,
      hb.answers, hb.buffer, hb.words⟩
    simpa [Session.pending, hserver] using hanswered
  | refuse hclient hserver =>
    refine ⟨⟨again, ?_, hclosed, hagain⟩, hb.toServer, hanswered, hb.messages, hb.answers,
      hb.buffer, hb.words⟩
    simpa [Session.unsent, hclient] using htyped
  | connect hclient hserver =>
    refine ⟨⟨again, ?_, hclosed, hagain⟩, hb.toServer, hanswered, hb.messages, hb.answers,
      hb.buffer, hb.words⟩
    simpa [Session.unsent, hclient] using htyped
  | @type w ws hclient hwords =>
    have hsuffix := hb.words
    rw [hwords] at hsuffix
    have hmem : w.text ∈ W.map Word.text :=
      List.mem_map.2 ⟨w, hsuffix.subset List.mem_cons_self, rfl⟩
    have hnil : again = [] := by
      by_contra hne
      have hwords' := (hclosed hne).2
      rw [hwords] at hwords'
      cases hwords'
    refine ⟨⟨again, ?_, fun h => absurd hnil h, hagain⟩, hb.toServer, hanswered, hb.messages,
      hb.answers, Or.inr (Or.inr hmem), (List.suffix_cons w ws).trans hsuffix⟩
    simpa [Session.unsent, hclient, hwords, textOf] using htyped
  | typeFails hclient hwords hcloses =>
    refine ⟨⟨again ++ [s.buffer], ?_, fun _ => ⟨hcloses, hwords⟩, fun text htext => ?_⟩,
      hb.toServer, hanswered, hb.messages, hb.answers, hb.buffer, hb.words⟩
    · have htyped' : textOf W ++ again.flatten = s.sent := by
        simpa [Session.unsent, hclient, hwords, textOf] using htyped
      simp [Session.unsent, hwords, textOf, ← htyped']
    · rcases List.mem_append.1 htext with h | h
      · exact hagain text h
      · rw [List.mem_singleton.1 h]
        exact hb.buffer
  | send hclient hserver =>
    rw [hb.cString_buffer]
    refine ⟨⟨again, ?_, hclosed, hagain⟩, ⟨stop, ?_, hstop⟩, hanswered, hb.messages, hb.answers,
      hb.buffer, hb.words⟩
    · simpa [Session.unsent, hclient] using htyped
    · simp [hsent]
  | sigpipe hclient hserver =>
    refine ⟨⟨again, ?_, hclosed, hagain⟩, hb.toServer, hanswered, hb.messages, hb.answers,
      hb.buffer, hb.words⟩
    simpa [Session.unsent, hclient] using htyped
  | @receive chunk rest hclient hqueue hchunk =>
    obtain ⟨hne, -, hlen⟩ := hgives _ _ hchunk
    have hplain : cString chunk = chunk :=
      cString_of_notMem fun hmem => hclient0 (by rw [hqueue]; exact List.mem_append_left _ hmem)
    rw [hplain, hb.afterLoop_eq hqueue]
    refine ⟨⟨again, ?_, hclosed, fun text htext => (hagain text htext).imp_right
      (Or.imp_left (List.mem_append_left _))⟩, hb.toServer, ?_, hb.messages, ?_,
      Or.inr (Or.inl (List.mem_append_right _ (List.mem_singleton.2 rfl))), hb.words⟩
    · simpa [Session.unsent, hclient] using htyped
    · simpa [hqueue, Session.pending] using hanswered
    · intro answer hanswer
      rcases List.mem_append.1 hanswer with h | h
      · exact hb.answers answer h
      · rw [List.mem_singleton.1 h]
        exact ⟨hne, by rw [MAX_BUF] at hlen ⊢; omega⟩
  | hangup hclient hqueue hserver =>
    refine ⟨⟨again, ?_, hclosed, hagain⟩, hb.toServer, hanswered, hb.messages, hb.answers,
      hb.buffer, hb.words⟩
    rcases afterLoop_cases s.buffer with h | h <;> simpa [Session.unsent, hclient, h] using htyped
  | @take chunk rest hserver hqueue hchunk hmessage =>
    obtain ⟨hne, -, hlen⟩ := hgives _ _ hchunk
    have hplain : cString chunk = chunk :=
      cString_of_notMem fun hmem => hserver0 (by rw [hqueue]; exact List.mem_append_left _ hmem)
    have hstop' := hnone (by simp [hserver])
    rw [hplain]
    refine ⟨hb.typed, ⟨[], ?_, Or.inl rfl⟩, ?_, fun message hmem => ?_, hb.answers, hb.buffer,
      hb.words⟩
    · simpa [hqueue, hstop'] using hsent
    · have hnext := congrArg (· ++ reply) hanswered
      simpa [Session.pending, hserver, List.replicate_succ'] using hnext
    · rcases List.mem_append.1 hmem with h | h
      · exact hb.messages message h
      · rw [List.mem_singleton.1 h]
        exact ⟨hne, by rw [MAX_BUF] at hlen ⊢; omega, hmessage⟩
  | @stop chunk rest hserver hqueue hchunk hmessage =>
    have hstop' := hnone (by simp [hserver])
    refine ⟨hb.typed, ⟨chunk, ?_, Or.inr ⟨rfl, hmessage⟩⟩, ?_, hb.messages, hb.answers, hb.buffer,
      hb.words⟩
    · simpa [hqueue, hstop'] using hsent
    · simpa [Session.pending, hserver] using hanswered
  | reply hserver hclient =>
    refine ⟨hb.typed, ⟨stop, hsent, Or.inl (hnone (by simp [hserver]))⟩, ?_, hb.messages,
      hb.answers, hb.buffer, hb.words⟩
    simpa [Session.pending, hserver] using hanswered
  | serverSigpipe hserver hclient =>
    have hfinished := ho.closed hclient
    rw [hserver] at hfinished
    cases hfinished

theorem Order.start (W : List Word) (closes : Bool) : Order W (.start W closes) where
  closed h := by cases h
  alive h := by cases h
  unconnected _ := Or.inl rfl
  early _ := rfl
  answered h := by cases h
  filled := Or.inr ⟨rfl, fun h => by rcases h with h | h <;> cases h⟩

/-- The order is kept when only the server goes on, to a place before its end. -/
theorem Order.server_step (ho : Order W s) {at' : ServerAt} (hserver : s.server ≠ .finished)
    (halive : at' ≠ .killed) (hearly : at' ≠ .starting)
    (hconnected : s.client.connected = false → at' = .accepting) {log : List Str}
    {toServer toClient : Str}
    (hanswered : s.client = .waiting →
      toClient ≠ [] ∨ at' = .replying ∨ at' = .finished ∨ toServer ≠ [] ∨
        (W = [] ∧ s.closes = true)) :
    Order W { s with
      server := at', serverLog := log, toServer := toServer, toClient := toClient } where
  closed h := absurd (ho.closed h) hserver
  alive := halive
  unconnected h := Or.inr (hconnected h)
  early h := absurd h hearly
  answered := hanswered
  filled := ho.filled

/-- The order is kept when only a connected client goes on, and does not stop before the
server. -/
theorem Order.client_step (ho : Order W s) {at' : ClientAt} (hold : s.client.connected = true)
    (hnew : at'.connected = true) (hclosed : at'.closed = true → s.server = .finished)
    {words : List Word} {buffer sent : Str} {log : List Str} {toServer toClient : Str}
    (hanswered : at' = .waiting →
      toClient ≠ [] ∨ s.server = .replying ∨ s.server = .finished ∨ toServer ≠ [] ∨
        (W = [] ∧ s.closes = true))
    (hfilled : buffer ≠ [] ∨
      (words = W ∧ (at' = .sending ∨ at' = .waiting → W = [] ∧ s.closes = true))) :
    Order W { s with
      words := words
      client := at'
      buffer := buffer
      clientLog := log
      sent := sent
      toServer := toServer
      toClient := toClient } where
  closed := hclosed
  alive := ho.alive
  unconnected h := by
    rw [hnew] at h
    cases h
  early h := by
    have hfalse := ho.early h
    rw [hold] at hfalse
    cases hfalse
  answered := hanswered
  filled := hfilled

/-- What the buffer holds stays the same while the client does not send. -/
theorem Order.filled_of (ho : Order W s) {at' : ClientAt}
    (hat : at' ≠ .sending ∧ at' ≠ .waiting) : s.buffer ≠ [] ∨
      (s.words = W ∧ (at' = .sending ∨ at' = .waiting → W = [] ∧ s.closes = true)) :=
  ho.filled.imp_right fun h => ⟨h.1, fun h' => (h'.elim hat.1 hat.2).elim⟩

/-- A server that reads has a connection. -/
theorem Order.connected (ho : Order W s) (hstarting : s.server ≠ .starting)
    (haccepting : s.server ≠ .accepting) : s.client.connected = true := by
  cases h : s.client.connected with
  | true => rfl
  | false => exact ((ho.unconnected h).elim hstarting haccepting).elim

/-- A closed server has finished. -/
theorem Order.finished (ho : Order W s) (h : s.server.closed = true) : s.server = .finished := by
  cases hserver : s.server with
  | finished => rfl
  | killed => exact absurd hserver ho.alive
  | _ =>
    rw [hserver] at h
    cases h

theorem Order.step (hgives : ∀ q c, gives q c → Gives q c) (hb : Bytes W s) (ho : Order W s)
    (h : Step gives s s') : Order W s' := by
  cases h with
  | listen hserver =>
    have hunconnected := ho.early hserver
    refine ho.server_step (by simp [hserver]) (by simp) (by simp) (fun _ => rfl) fun hwaiting => ?_
    rw [hwaiting] at hunconnected
    cases hunconnected
  | accept hserver hclient =>
    refine ho.server_step (by simp [hserver]) (by simp) (by simp)
      (fun h => by rw [hclient] at h; cases h) fun hwaiting => ?_
    simpa [hserver] using ho.answered hwaiting
  | refuse hclient hserver =>
    exact ⟨fun h => Bool.noConfusion h, ho.alive, fun _ => Or.inl hserver, fun _ => rfl,
      fun h => ClientAt.noConfusion h, ho.filled_of (by simp)⟩
  | connect hclient hserver =>
    refine ⟨fun h => Bool.noConfusion h, ho.alive, fun h => Bool.noConfusion h, fun h => ?_,
      fun h => ClientAt.noConfusion h, ho.filled_of (by simp)⟩
    rw [hserver] at h
    cases h
  | @type w ws hclient hwords =>
    refine ho.client_step (by rw [hclient]; rfl) rfl (fun h => Bool.noConfusion h)
      (fun h => ClientAt.noConfusion h) (Or.inl w.ne_nil)
  | typeFails hclient hwords hcloses =>
    refine ho.client_step (by rw [hclient]; rfl) rfl (fun h => Bool.noConfusion h)
      (fun h => ClientAt.noConfusion h) (ho.filled.imp_right fun h => ⟨h.1, fun _ => ⟨?_, hcloses⟩⟩)
    rw [← h.1, hwords]
  | send hclient hserver =>
    rw [hb.cString_buffer]
    refine ho.client_step (by rw [hclient]; rfl) rfl (fun h => Bool.noConfusion h) (fun _ => ?_)
      (ho.filled.imp_right fun h => ⟨h.1, fun _ => h.2 (Or.inl hclient)⟩)
    rcases ho.filled with hne | ⟨-, hempty⟩
    · exact Or.inr (Or.inr (Or.inr (Or.inl (List.append_ne_nil_of_right_ne_nil _ hne))))
    · exact Or.inr (Or.inr (Or.inr (Or.inr (hempty (Or.inl hclient)))))
  | sigpipe hclient hserver =>
    exact ho.client_step (by rw [hclient]; rfl) rfl (fun _ => ho.finished hserver)
      (fun h => ClientAt.noConfusion h) (ho.filled_of (by simp))
  | @receive chunk rest hclient hqueue hchunk =>
    rw [hb.afterLoop_eq hqueue]
    exact ho.client_step (by rw [hclient]; rfl) rfl (fun h => Bool.noConfusion h)
      (fun h => ClientAt.noConfusion h) (Or.inl (hgives _ _ hchunk).1)
  | hangup hclient hqueue hserver =>
    rcases afterLoop_cases s.buffer with h | h
    · rw [h]
      exact ho.client_step (by rw [hclient]; rfl) rfl (fun _ => ho.finished hserver)
        (fun h => ClientAt.noConfusion h) (ho.filled_of (by simp))
    · rw [h]
      exact ho.client_step (by rw [hclient]; rfl) rfl (fun _ => ho.finished hserver)
        (fun h => ClientAt.noConfusion h) (ho.filled_of (by simp))
  | @take chunk rest hserver hqueue hchunk hmessage =>
    have hconnected := ho.connected (by simp [hserver]) (by simp [hserver])
    exact ho.server_step (by simp [hserver]) (by simp) (by simp)
      (fun h => by rw [hconnected] at h; cases h) fun _ => Or.inr (Or.inl rfl)
  | @stop chunk rest hserver hqueue hchunk hmessage =>
    have hconnected := ho.connected (by simp [hserver]) (by simp [hserver])
    exact ho.server_step (by simp [hserver]) (by simp) (by simp)
      (fun h => by rw [hconnected] at h; cases h) fun _ => Or.inr (Or.inr (Or.inl rfl))
  | reply hserver hclient =>
    have hconnected := ho.connected (by simp [hserver]) (by simp [hserver])
    exact ho.server_step (by simp [hserver]) (by simp) (by simp)
      (fun h => by rw [hconnected] at h; cases h)
      fun _ => Or.inl (List.append_ne_nil_of_right_ne_nil _ (by decide))
  | serverSigpipe hserver hclient =>
    have hfinished := ho.closed hclient
    rw [hserver] at hfinished
    cases hfinished

theorem inv_of_run {n : ℕ} (hgives : ∀ q c, gives q c → Gives q c)
    (h : Steps.Runs (Step gives) (.start W closes) n s) : Bytes W s ∧ Order W s :=
  Steps.inv_of_runs (I := fun s => Bytes W s ∧ Order W s)
    (fun _ _ hs hstep => ⟨hs.1.step hgives hs.2 hstep, hs.2.step hgives hs.1 hstep⟩)
    ⟨.start W closes, .start W closes⟩ h

/-- A word that the server reads in two parts. -/
def hi : Word := ⟨"hi".toList, by decide, by decide, by decide⟩

/-- The server has answered the first part, the client has read the answer, and at the end
of its input sends it again. -/
def halfway : Session where
  words := []
  closes := true
  client := .waiting
  buffer := reply
  clientLog := [reply]
  server := .reading
  serverLog := ["h".toList]
  sent := "hi".toList ++ reply
  toServer := "i".toList ++ reply
  toClient := []

theorem runs_halfway : Steps.Runs (Step Gives) (.start [hi] true) 10 halfway := by
  have h2 : Steps.Runs (Step Gives) (.start [hi] true) 2
      ⟨[hi], true, .typing, [], [], .accepting, [], [], [], []⟩ :=
    .tail (.tail .refl (.listen rfl)) (.connect rfl rfl)
  have h5 : Steps.Runs (Step Gives) (.start [hi] true) 5
      ⟨[], true, .waiting, hi.text, [], .reading, [], hi.text, hi.text, []⟩ :=
    .tail (.tail (.tail h2 (.type rfl rfl)) (.send rfl rfl)) (.accept rfl rfl)
  have h8 : Steps.Runs (Step Gives) (.start [hi] true) 8
      ⟨[], true, .typing, reply, [reply], .reading, ["h".toList], hi.text, "i".toList, []⟩ :=
    .tail (.tail (.tail h5 (@Step.take Gives _ ['h'] ['i'] rfl rfl
      ⟨by decide, ⟨['i'], rfl⟩, by decide⟩ (by decide))) (.reply rfl rfl))
      (@Step.receive Gives _ reply [] rfl rfl ⟨by decide, ⟨[], rfl⟩, by decide⟩)
  exact .tail (.tail h8 (.typeFails rfl rfl rfl)) (.send rfl rfl)

/-- What the client still has to do. -/
def clientWeight (client : ClientAt) (buffer : Str) : ℕ :=
  match client with
  | .starting => 1
  | .sending => 2 * buffer.length + 2
  | .waiting => 1
  | _ => 0

/-- What the server still has to do. -/
def serverWeight : ServerAt → ℕ
  | .starting => 2
  | .accepting => 1
  | .replying => 1
  | _ => 0

/-- What typing and sending the words takes, and reading them byte by byte. -/
def wordsWeight (words : List Word) : ℕ := (words.map fun w => 2 * w.text.length + 3).sum

/-- An upper bound for the steps that are left. -/
def weight (s : Session) : ℕ :=
  wordsWeight s.words + clientWeight s.client s.buffer + 2 * s.toServer.length
    + serverWeight s.server

theorem clientWeight_afterLoop (buffer buffer' : Str) :
    clientWeight (afterLoop buffer) buffer' = 0 := by
  rcases afterLoop_cases buffer with h | h <;> rw [h] <;> rfl

/-- Every step takes some of the weight, unless the input is at its end. -/
theorem weight_step (hgives : ∀ q c, gives q c → Gives q c)
    (hinput : s.client = .typing → s.words = [] → s.closes = false) (h : Step gives s s') :
    weight s' < weight s := by
  cases h with
  | listen hserver => simp [weight, hserver, serverWeight]
  | accept hserver hclient => simp [weight, hserver, serverWeight]
  | refuse hclient hserver => simp [weight, hclient, clientWeight]
  | connect hclient hserver => simp [weight, hclient, clientWeight]
  | type hclient hwords =>
    simp only [weight, hclient, hwords, wordsWeight, clientWeight, List.map_cons, List.sum_cons]
    omega
  | typeFails hclient hwords hcloses =>
    rw [hinput hclient hwords] at hcloses
    cases hcloses
  | send hclient hserver =>
    have hlen : (cString s.buffer).length ≤ s.buffer.length :=
      (List.takeWhile_prefix _).length_le
    simp only [weight, hclient, clientWeight, List.length_append]
    omega
  | sigpipe hclient hserver => simp [weight, hclient, clientWeight]
  | receive hclient hqueue hchunk =>
    simp only [weight, hclient, clientWeight_afterLoop]
    simp only [clientWeight]
    omega
  | hangup hclient hqueue hserver =>
    simp only [weight, hclient, clientWeight_afterLoop]
    simp only [clientWeight]
    omega
  | take hserver hqueue hchunk hmessage =>
    have hlen := List.length_pos_iff.2 (hgives _ _ hchunk).1
    simp only [weight, hserver, hqueue, serverWeight, List.length_append]
    omega
  | stop hserver hqueue hchunk hmessage =>
    have hlen := List.length_pos_iff.2 (hgives _ _ hchunk).1
    simp only [weight, hserver, hqueue, serverWeight, List.length_append]
    omega
  | reply hserver hclient => simp [weight, hserver, serverWeight]
  | serverSigpipe hserver hclient => simp [weight, hserver, serverWeight]

/-- A server that reads can go on when there is something to read. -/
theorem exists_step_of_toServer (hgives : ∀ q c, gives q c → Gives q c)
    (hsome : ∀ q, q ≠ [] → ∃ c, gives q c) (hserver : s.server = .reading)
    (hqueue : s.toServer ≠ []) : ∃ s', Step gives s s' := by
  obtain ⟨chunk, hchunk⟩ := hsome _ hqueue
  obtain ⟨rest, hrest⟩ := (hgives _ _ hchunk).2.1
  by_cases hstop : chunk.head? = some '~'
  · exact ⟨_, .stop hserver hrest.symm hchunk hstop⟩
  · exact ⟨_, .take hserver hrest.symm hchunk hstop⟩

/-- Where a session that cannot go on is. -/
inductive Ended (W : List Word) (s : Session) : Prop
  /-- the client waits for another word of the user, and the server for the client -/
  | asked (hclient : s.client = .typing) (hwords : s.words = []) (hcloses : s.closes = false)
      (hserver : s.server = .reading) (hqueue : s.toServer = [])
  /-- the same after the server stopped -/
  | left (hclient : s.client = .typing) (hwords : s.words = []) (hcloses : s.closes = false)
      (hserver : s.server = .finished)
  /-- both programs stopped -/
  | stopped (hclient : s.client.closed = true) (hserver : s.server = .finished)
  /-- the client came before there was a server -/
  | refused (hclient : s.client = .refused) (hserver : s.server = .accepting)
  /-- the input was closed without a word, and the two wait for each other -/
  | starved (hempty : W = []) (hcloses : s.closes = true) (hclient : s.client = .waiting)
      (hserver : s.server = .reading) (hsent : s.toServer = []) (hanswers : s.toClient = [])

/-- Where nothing can happen any more, the session has ended. -/
theorem of_stuck (hgives : ∀ q c, gives q c → Gives q c) (hsome : ∀ q, q ≠ [] → ∃ c, gives q c)
    (ho : Order W s) (hstuck : Steps.Stuck (Step gives) s) : Ended W s := by
  have hread : s.server = .reading → s.toServer = [] := fun hserver => by
    by_contra hqueue
    obtain ⟨s', hs'⟩ := exists_step_of_toServer hgives hsome hserver hqueue
    exact hstuck s' hs'
  have hlisten : s.server ≠ .starting := fun hserver => hstuck _ (.listen hserver)
  have haccept : s.client.connected = true → s.server ≠ .accepting := fun hclient hserver =>
    hstuck _ (.accept hserver hclient)
  have hreply : s.client.closed = false → s.server ≠ .replying := fun hclient hserver =>
    hstuck _ (.reply hserver hclient)
  cases hclient : s.client with
  | starting =>
    have hserver := (ho.unconnected (by rw [hclient]; rfl)).resolve_left hlisten
    exact (hstuck _ (.connect hclient hserver)).elim
  | refused =>
    have hserver := (ho.unconnected (by rw [hclient]; rfl)).resolve_left hlisten
    exact .refused hclient hserver
  | typing =>
    have hwords : s.words = [] := by
      cases hwords : s.words with
      | nil => rfl
      | cons w ws => exact (hstuck _ (.type hclient hwords)).elim
    have hcloses : s.closes = false :=
      Bool.eq_false_iff.2 fun hcloses => hstuck _ (.typeFails hclient hwords hcloses)
    cases hserver : s.server with
    | starting => exact (hlisten hserver).elim
    | accepting => exact (haccept (by rw [hclient]; rfl) hserver).elim
    | reading => exact .asked hclient hwords hcloses hserver (hread hserver)
    | replying => exact (hreply (by rw [hclient]; rfl) hserver).elim
    | finished => exact .left hclient hwords hcloses hserver
    | killed => exact (ho.alive hserver).elim
  | sending =>
    cases hclosed : s.server.closed with
    | true => exact (hstuck _ (.sigpipe hclient hclosed)).elim
    | false => exact (hstuck _ (.send hclient hclosed)).elim
  | waiting =>
    by_cases hqueue : s.toClient = []
    · cases hserver : s.server with
      | starting => exact (hlisten hserver).elim
      | accepting => exact (haccept (by rw [hclient]; rfl) hserver).elim
      | reading =>
        rcases ho.answered hclient with h | h | h | h | ⟨hempty, hcloses⟩
        · exact (h hqueue).elim
        · rw [hserver] at h
          cases h
        · rw [hserver] at h
          cases h
        · exact (h (hread hserver)).elim
        · exact .starved hempty hcloses hclient hserver (hread hserver) hqueue
      | replying => exact (hreply (by rw [hclient]; rfl) hserver).elim
      | finished => exact (hstuck _ (.hangup hclient hqueue (by rw [hserver]; rfl))).elim
      | killed => exact (ho.alive hserver).elim
    · obtain ⟨chunk, hchunk⟩ := hsome _ hqueue
      obtain ⟨rest, hrest⟩ := (hgives _ _ hchunk).2.1
      exact (hstuck _ (.receive hclient hrest.symm hchunk)).elim
  | finished =>
    have hclosed : s.client.closed = true := by rw [hclient]; rfl
    exact .stopped hclosed (ho.closed hclosed)
  | killed =>
    have hclosed : s.client.closed = true := by rw [hclient]; rfl
    exact .stopped hclosed (ho.closed hclosed)

theorem closes_step (h : Step gives s s') : s'.closes = s.closes := by cases h <;> rfl

theorem weight_start (W : List Word) (closes : Bool) :
    weight (.start W closes) = wordsWeight W + 3 := by
  simp [weight, Session.start, clientWeight, serverWeight]

/-- Unless the input is closed, no run goes on for ever, and every run goes on to an end.
Where nothing can happen the session has ended, and there is no deadlock but that of an
input which is closed without a word. -/
theorem session_progress {n : ℕ} (hgives : ∀ q c, gives q c → Gives q c)
    (hsome : ∀ q, q ≠ [] → ∃ c, gives q c) (h : Steps.Runs (Step gives) (.start W closes) n s) :
    (closes = false → n ≤ wordsWeight W + 3 ∧
      ∃ m t, Steps.Runs (Step gives) s m t ∧ Steps.Stuck (Step gives) t) ∧
    (Steps.Stuck (Step gives) s → Ended W s) := by
  refine ⟨?_, of_stuck hgives hsome (inv_of_run hgives h).2⟩
  rintro rfl
  have hkeep : ∀ s t, s.closes = false → Step gives s t → t.closes = false :=
    fun _ _ hs hstep => (closes_step hstep).trans hs
  have hlower : ∀ s t, s.closes = false → Step gives s t → weight t < weight s :=
    fun _ _ hs hstep => weight_step hgives (fun _ _ => hs) hstep
  constructor
  · have hlen := Steps.length_of_runs hkeep hlower rfl h
    rw [weight_start] at hlen
    omega
  · exact Steps.exists_stuck hkeep hlower (Steps.inv_of_runs (I := fun s => s.closes = false)
      hkeep rfl h)

theorem exists_gives (queue : Str) (h : queue ≠ []) : ∃ chunk, Gives queue chunk := by
  obtain ⟨c, rest, rfl⟩ := List.exists_cons_of_ne_nil h
  exact ⟨[c], List.cons_ne_nil _ _, ⟨rest, rfl⟩, by simp [MAX_BUF]⟩

/-- The user has typed nothing, and the client is connected. -/
def unasked : Session :=
  ⟨[hi], false, .typing, [], [], .reading, [], [], [], []⟩

theorem runs_unasked : Steps.Runs (Step Gives) (.start [hi] false) 3 unasked :=
  .tail (.tail (.tail .refl (.listen rfl)) (.connect rfl rfl)) (.accept rfl rfl)

theorem session_progress_unasked :
    (3 ≤ wordsWeight [hi] + 3 ∧
      ∃ m t, Steps.Runs (Step Gives) unasked m t ∧ Steps.Stuck (Step Gives) t) ∧
    (Steps.Stuck (Step Gives) halfway → Ended [hi] halfway) :=
  ⟨(session_progress (fun _ _ h => h) exists_gives runs_unasked).1 rfl,
    (session_progress (fun _ _ h => h) exists_gives runs_halfway).2⟩

/-! ## Reads that get all there is -/

theorem gives_of_givesAll {queue chunk : Str} (h : GivesAll queue chunk) : Gives queue chunk := by
  obtain ⟨hne, rfl⟩ := h
  refine ⟨fun hnil => ?_, List.take_prefix _ _, List.length_take_le _ _⟩
  rcases List.take_eq_nil_iff.1 hnil with h | h
  · cases h
  · exact hne h

/-- A short message is read as a whole. -/
theorem whole_of_givesAll {queue chunk rest : Str} (h : GivesAll queue chunk)
    (hqueue : queue = chunk ++ rest) (hlen : queue.length < MAX_BUF) :
    chunk = queue ∧ rest = [] := by
  have hchunk : chunk = queue := by
    rw [h.2, List.take_of_length_le (by omega)]
  refine ⟨hchunk, ?_⟩
  rw [hchunk] at hqueue
  exact List.self_eq_append_right.1 hqueue

/-- A word that does not end the session. -/
def Word.IsMessage (w : Word) : Prop := w.text.head? ≠ some '~'

instance (w : Word) : Decidable w.IsMessage := inferInstanceAs (Decidable (_ ≠ _))

/-- The answers of the server so far. -/
def answers (front : List Word) : List Str := List.replicate front.length reply

/-- The places of a session in lockstep: `front` is what was answered already. -/
inductive Lockstep (W : List Word) : Session → Prop
  /-- before the client is connected -/
  | opening {closes client server sent} (hclient : client = .starting ∨ client = .refused)
      (hserver : server = .starting ∨ server = .accepting) :
      Lockstep W ⟨W, closes, client, [], [], server, [], sent, [], []⟩
  /-- the client asks for a word, or sends it -/
  | asking {front back closes client buffer server sent} (hwords : W = front ++ back)
      (hmessages : ∀ w ∈ front, w.IsMessage) (hclient : client = .typing)
      (hserver : server = .accepting ∨ server = .reading) :
      Lockstep W ⟨back, closes, client, buffer, answers front, server, front.map Word.text,
        sent, [], []⟩
  | sending {front w back closes server sent} (hwords : W = front ++ w :: back)
      (hmessages : ∀ w ∈ front, w.IsMessage) (hserver : server = .accepting ∨ server = .reading) :
      Lockstep W ⟨back, closes, .sending, w.text, answers front, server, front.map Word.text,
        sent, [], []⟩
  /-- the word is on its way -/
  | sent {front w back closes server sent} (hwords : W = front ++ w :: back)
      (hmessages : ∀ w ∈ front, w.IsMessage) (hserver : server = .accepting ∨ server = .reading) :
      Lockstep W ⟨back, closes, .waiting, w.text, answers front, server, front.map Word.text,
        sent, w.text, []⟩
  /-- the server has logged it -/
  | logged {front w back closes sent} (hwords : W = front ++ w :: back)
      (hmessages : ∀ w ∈ front, w.IsMessage) (hmessage : w.IsMessage) :
      Lockstep W ⟨back, closes, .waiting, w.text, answers front, .replying,
        front.map Word.text ++ [w.text], sent, [], []⟩
  /-- the answer is on its way -/
  | answered {front w back closes sent} (hwords : W = front ++ w :: back)
      (hmessages : ∀ w ∈ front, w.IsMessage) (hmessage : w.IsMessage) :
      Lockstep W ⟨back, closes, .waiting, w.text, answers front, .reading,
        front.map Word.text ++ [w.text], sent, [], reply⟩
  /-- the server has stopped, and then the client -/
  | stopped {front w back closes client sent} (hwords : W = front ++ w :: back)
      (hmessages : ∀ w ∈ front, w.IsMessage) (hmessage : ¬ w.IsMessage)
      (hclient : client = .waiting ∨ client = .finished) :
      Lockstep W ⟨back, closes, client, w.text, answers front, .finished, front.map Word.text,
        sent, [], []⟩

theorem answers_concat (front : List Word) (w : Word) :
    answers (front ++ [w]) = answers front ++ [reply] := by
  rw [answers, List.length_append, List.length_singleton, List.replicate_succ']
  rfl

theorem messages_concat {front : List Word} {w : Word} (hmessages : ∀ w ∈ front, w.IsMessage)
    (hmessage : w.IsMessage) : ∀ v ∈ front ++ [w], v.IsMessage := by
  intro v hv
  rcases List.mem_append.1 hv with h | h
  · exact hmessages v h
  · rw [List.mem_singleton.1 h]
    exact hmessage

/-- A client in lockstep does not come to the end of the input, when a word before it ends
the session. -/
theorem Lockstep.words_ne_nil (hs : Lockstep W s) (hend : ∃ w ∈ W, ¬ w.IsMessage)
    (hclient : s.client = .typing) : s.words ≠ [] := by
  intro hnil
  obtain ⟨w, hw, hends⟩ := hend
  cases hs with
  | opening hc hs => rcases hc with rfl | rfl <;> cases hclient
  | asking hwords hmessages hc hs =>
    obtain rfl := show _ = [] from hnil
    rw [List.append_nil] at hwords
    exact hends (hmessages w (hwords ▸ hw))
  | stopped hwords hmessages hmessage hc => rcases hc with rfl | rfl <;> cases hclient
  | _ => cases hclient

theorem Lockstep.step (hend : ∃ w ∈ W, ¬ w.IsMessage) (hs : Lockstep W s)
    (h : Step GivesAll s s') : Lockstep W s' := by
  have hinput := hs.words_ne_nil hend
  cases hs with
  | @opening closes client server sent hclient hserver =>
    cases h with
    | listen hs => exact .opening hclient (Or.inr rfl)
    | refuse hc hs => exact .opening (Or.inr rfl) hserver
    | connect hc hs =>
      obtain rfl : server = .accepting := hs
      exact .asking (List.nil_append W).symm (fun w hw => absurd hw List.not_mem_nil) rfl
        (Or.inl rfl)
    | _ => rcases hclient with rfl | rfl <;> simp_all [ClientAt.connected]
  | @asking front back closes client buffer server sent hwords hmessages hclient hserver =>
    cases h with
    | accept hs hc => exact .asking hwords hmessages hclient (Or.inr rfl)
    | @type w ws hc hw =>
      obtain rfl : back = w :: ws := hw
      exact .sending hwords hmessages hserver
    | typeFails hc hw => exact absurd hw (hinput hc)
    | _ => rcases hserver with rfl | rfl <;> simp_all [GivesAll]
  | @sending front w back closes server sent hwords hmessages hserver =>
    cases h with
    | accept hs hc => exact .sending hwords hmessages (Or.inr rfl)
    | send hc hs =>
      show Lockstep W ⟨back, closes, .waiting, w.text, answers front, server, front.map Word.text,
        sent ++ cString w.text, cString w.text, []⟩
      rw [cString_of_notMem w.plain]
      exact .sent hwords hmessages hserver
    | _ => rcases hserver with rfl | rfl <;> simp_all [GivesAll, ServerAt.closed]
  | @sent front w back closes server sent hwords hmessages hserver =>
    cases h with
    | accept hs hc => exact .sent hwords hmessages (Or.inr rfl)
    | take hs hqueue hchunk hmessage =>
      obtain ⟨rfl, rfl⟩ := whole_of_givesAll hchunk hqueue w.fits
      show Lockstep W ⟨back, closes, .waiting, w.text, answers front, .replying,
        front.map Word.text ++ [cString w.text], sent, [], []⟩
      rw [cString_of_notMem w.plain]
      exact .logged hwords hmessages hmessage
    | stop hs hqueue hchunk hmessage =>
      obtain ⟨rfl, rfl⟩ := whole_of_givesAll hchunk hqueue w.fits
      exact .stopped hwords hmessages (not_not.2 hmessage) (Or.inl rfl)
    | _ => rcases hserver with rfl | rfl <;> simp_all [GivesAll, ServerAt.closed]
  | @logged front w back closes sent hwords hmessages hmessage =>
    cases h with
    | reply hs hc => exact .answered hwords hmessages hmessage
    | _ => simp_all [GivesAll, ServerAt.closed, ClientAt.closed]
  | @answered front w back closes sent hwords hmessages hmessage =>
    cases h with
    | @receive chunk rest hc hqueue hchunk =>
      have hlen : reply.length < MAX_BUF := by decide
      obtain ⟨rfl, rfl⟩ := whole_of_givesAll hchunk hqueue hlen
      have hnext : Lockstep W ⟨back, closes, .typing, reply, answers (front ++ [w]), .reading,
          (front ++ [w]).map Word.text, sent, [], []⟩ :=
        .asking (hwords.trans (List.append_cons front w back)) (messages_concat hmessages hmessage)
          rfl (Or.inr rfl)
      rw [answers_concat, List.map_append] at hnext
      exact hnext
    | _ => simp_all [GivesAll, ServerAt.closed]
  | @stopped front w back closes client sent hwords hmessages hmessage hclient =>
    cases h with
    | hangup hc hqueue hs =>
      have hafter : afterLoop w.text = .finished := if_pos (not_not.1 hmessage)
      rw [hafter]
      exact .stopped hwords hmessages hmessage (Or.inr rfl)
    | _ => rcases hclient with rfl | rfl <;> simp_all [GivesAll]

theorem exists_givesAll (queue : Str) (h : queue ≠ []) : ∃ chunk, GivesAll queue chunk :=
  ⟨_, h, rfl⟩

/-- The first word that ends the session is where it is. -/
theorem front_unique {front front' back back' : List Word} {w w' : Word}
    (h : front ++ w :: back = front' ++ w' :: back') (hfront : ∀ v ∈ front, v.IsMessage)
    (hfront' : ∀ v ∈ front', v.IsMessage) (hw : ¬ w.IsMessage) (hw' : ¬ w'.IsMessage) :
    front = front' ∧ back = back' := by
  induction front generalizing front' with
  | nil =>
    cases front' with
    | nil => exact ⟨rfl, (List.cons.inj h).2⟩
    | cons v front' =>
      obtain ⟨rfl, -⟩ := List.cons.inj h
      exact absurd (hfront' w List.mem_cons_self) hw
  | cons v front ih =>
    cases front' with
    | nil =>
      obtain ⟨rfl, -⟩ := List.cons.inj h
      exact absurd (hfront v List.mem_cons_self) hw'
    | cons v' front' =>
      obtain ⟨rfl, htail⟩ := List.cons.inj h
      obtain ⟨rfl, rfl⟩ := ih htail (fun u hu => hfront u (List.mem_cons_of_mem _ hu))
        fun u hu => hfront' u (List.mem_cons_of_mem _ hu)
      exact ⟨rfl, rfl⟩

/-- A session in lockstep that has come to its end, where the user types `w` behind
`front` to end it. -/
def Done (front back : List Word) (s : Session) : Prop :=
  s.client = .finished ∧ s.server = .finished ∧ s.serverLog = front.map Word.text ∧
    s.clientLog = answers front ∧ s.words = back

/-- When every read returns all there is and the user types a word that ends the session,
every run is bounded, and goes on until both programs have stopped, the server has logged
the words before that one by one and the client one answer to each, unless the client
came too early. -/
theorem session_lockstep {front back : List Word} {w : Word} {n : ℕ}
    (hfront : ∀ v ∈ front, v.IsMessage) (hw : ¬ w.IsMessage)
    (h : Steps.Runs (Step GivesAll) (.start (front ++ w :: back) closes) n s) :
    n ≤ wordsWeight (front ++ w :: back) + 3 ∧
      ((∃ t, Step GivesAll s t) ∨ s.client = .refused ∨ Done front back s) := by
  have hend : ∃ v ∈ front ++ w :: back, ¬ v.IsMessage := ⟨w, by simp, hw⟩
  have hkeep : ∀ s t, Lockstep (front ++ w :: back) s → Step GivesAll s t →
      Lockstep (front ++ w :: back) t := fun _ _ hs hstep => hs.step hend hstep
  have hstart : Lockstep (front ++ w :: back) (.start (front ++ w :: back) closes) :=
    .opening (Or.inl rfl) (Or.inl rfl)
  have hlock : Lockstep (front ++ w :: back) s := Steps.inv_of_runs hkeep hstart h
  constructor
  · have hlen := Steps.length_of_runs hkeep (fun _ _ hs hstep =>
      weight_step (fun _ _ => gives_of_givesAll)
        (fun hclient hnil => absurd hnil (hs.words_ne_nil hend hclient)) hstep) hstart h
    rw [weight_start] at hlen
    omega
  · by_cases hgoes : ∃ t, Step GivesAll s t
    · exact Or.inl hgoes
    · have hended := (session_progress (fun _ _ => gives_of_givesAll) exists_givesAll h).2
        fun t ht => hgoes ⟨t, ht⟩
      refine Or.inr ?_
      cases hended with
      | asked hclient hwords => exact absurd hwords (hlock.words_ne_nil hend hclient)
      | left hclient hwords => exact absurd hwords (hlock.words_ne_nil hend hclient)
      | refused hclient => exact Or.inl hclient
      | starved hempty => exact absurd hempty (by simp)
      | stopped hclosed hserver =>
        cases hlock with
        | opening hc hs => rcases hc with rfl | rfl <;> cases hclosed
        | asking hwords hmessages hc hs =>
          subst hc
          cases hclosed
        | stopped hwords hmessages hmessage hc =>
          obtain ⟨rfl, rfl⟩ := front_unique hwords hfront hmessages hw hmessage
          rcases hc with rfl | rfl
          · cases hclosed
          · exact Or.inr ⟨rfl, rfl, rfl, rfl, rfl⟩
        | _ => cases hclosed

/-- A word that ends the session. -/
def bye : Word := ⟨"~".toList, by decide, by decide, by decide⟩

/-- Both programs have stopped. -/
def stopped : Session where
  words := [hi]
  closes := true
  client := .finished
  buffer := "~".toList
  clientLog := [reply]
  server := .finished
  serverLog := ["hi".toList]
  sent := "hi~".toList
  toServer := []
  toClient := []

theorem runs_stopped :
    Steps.Runs (Step GivesAll) (.start ([hi] ++ bye :: [hi]) true) 12 stopped := by
  have h4 : Steps.Runs (Step GivesAll) (.start ([hi] ++ bye :: [hi]) true) 4
      ⟨[bye, hi], true, .sending, hi.text, [], .reading, [], [], [], []⟩ :=
    .tail (.tail (.tail (.tail .refl (.listen rfl)) (.connect rfl rfl)) (.accept rfl rfl))
      (.type rfl rfl)
  have h8 : Steps.Runs (Step GivesAll) (.start ([hi] ++ bye :: [hi]) true) 8
      ⟨[bye, hi], true, .typing, reply, [reply], .reading, [hi.text], hi.text, [], []⟩ :=
    .tail (.tail (.tail (.tail h4 (.send rfl rfl))
      (@Step.take GivesAll _ hi.text [] rfl rfl ⟨by decide, by decide⟩ (by decide)))
      (.reply rfl rfl)) (@Step.receive GivesAll _ reply [] rfl rfl ⟨by decide, by decide⟩)
  exact .tail (.tail (.tail (.tail h8 (.type rfl rfl)) (.send rfl rfl))
    (@Step.stop GivesAll _ bye.text [] rfl rfl ⟨by decide, by decide⟩ rfl))
    (.hangup rfl rfl rfl)

theorem stuck_stopped : Steps.Stuck (Step GivesAll) stopped := by
  intro t ht
  cases ht with
  | listen hserver => cases hserver
  | accept hserver hclient => cases hserver
  | take hserver hqueue hchunk hmessage => cases hserver
  | stop hserver hqueue hchunk hmessage => cases hserver
  | reply hserver hclient => cases hserver
  | serverSigpipe hserver hclient => cases hserver
  | _ => cases ‹stopped.client = _›

theorem session_lockstep_stopped : 12 ≤ wordsWeight ([hi] ++ bye :: [hi]) + 3 ∧
    Done [hi] [hi] stopped := by
  obtain ⟨hlen, hgoes | hrefused | hdone⟩ :=
    session_lockstep (by decide) (by decide) runs_stopped
  · obtain ⟨t, ht⟩ := hgoes
    exact (stuck_stopped t ht).elim
  · cases hrefused
  · exact ⟨hlen, hdone⟩

end SysFs.Demo
