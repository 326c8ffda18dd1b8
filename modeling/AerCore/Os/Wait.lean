import AerCore.Os.Spawn

/-!
# Draining the pipes and waiting for the root

`spawn_drain_thread` and `OsProcess::wait`.  One drain thread per pipe reads in
pieces of at most 8192 bytes; with a sender it forwards each piece, numbered,
over the channel both streams share, and without one it copies to a sink.
`wait` starts both threads, waits for the root, kills what is left of the tree
and joins the threads.

The channel counts its senders by where they are: `chunk_tx` on the run thread
and one clone for each stream, which travels from `OutputSinks` through the wait
thread into its drain thread and is dropped when that thread ends.

## Main definitions

* `ChunkMsg`, `ChunkChan` — the shared channel.
* `drainStep` — one drain thread.
* `WaitPc`, `waitStep` — `wait`, and the wait thread around it.
-/

namespace AerCore

/-! ### The chunk channel -/

/-- A single captured chunk, tagged with the stream it came from. -/
inductive ChunkMsg
  | stdout (seq : ℕ) (bytes : List UInt8)
  | stderr (seq : ℕ) (bytes : List UInt8)
  deriving DecidableEq, Repr

/-- The constructor a drain thread is given as its `make_msg`. -/
def Stream.makeMsg : Stream → ℕ → List UInt8 → ChunkMsg
  | .stdout => .stdout
  | .stderr => .stderr

/-- The event the run thread emits for a chunk. -/
def ChunkMsg.event : ChunkMsg → Event
  | .stdout seq bytes => .stdoutChunk seq bytes
  | .stderr seq bytes => .stderrChunk seq bytes

/-- The unbounded channel from the drain threads to the run thread. -/
structure ChunkChan where
  /-- Messages sent and not received yet, oldest first. -/
  queue : List ChunkMsg
  /-- The run thread still holds `chunk_tx`. -/
  txRun : Bool
  /-- The clone for stdout is alive. -/
  txOut : Bool
  /-- The clone for stderr is alive. -/
  txErr : Bool
  /-- The run thread still holds `chunk_rx`. -/
  rx : Bool
  deriving DecidableEq, Repr

/-- No channel: capture is off, or it has not been created yet. -/
def ChunkChan.none : ChunkChan := ⟨[], false, false, false, false⟩

/-- Every sender has been dropped. -/
def ChunkChan.closed (ch : ChunkChan) : Bool := !ch.txRun && !ch.txOut && !ch.txErr

/-- The clone for a stream is dropped. -/
def ChunkChan.dropTx (ch : ChunkChan) : Stream → ChunkChan
  | .stdout => { ch with txOut := false }
  | .stderr => { ch with txErr := false }

/-- A send: queued, or lost if the receiver is gone. -/
def ChunkChan.send (ch : ChunkChan) (m : ChunkMsg) : ChunkChan :=
  if ch.rx then { ch with queue := ch.queue ++ [m] } else ch

/-! ### Drain threads -/

/-- Size of the read buffer. -/
def bufSize : ℕ := 8192

/-- Where a drain thread stands. -/
inductive DrainPc
  | idle
  | reading
  | sending (bytes : List UInt8)
  | done
  deriving DecidableEq, Repr

/-- A drain thread: its place and the number of the next chunk. -/
structure Drain where
  /-- Where the thread stands. -/
  pc : DrainPc
  /-- Number of the next chunk. -/
  seq : ℕ
  deriving DecidableEq, Repr

/-- The result of one `read`. -/
inductive ReadResult
  | bytes (bs : List UInt8)
  | eof
  /-- `ErrorKind::Interrupted`. -/
  | interrupted
  | error (e : IoError)
  deriving DecidableEq, Repr

/-- The steps of a drain thread. -/
inductive DrainAct
  | read (r : ReadResult)
  | send
  deriving DecidableEq, Repr

/-- The two drain threads and the channel they feed. -/
structure Output where
  /-- The shared channel. -/
  chunks : ChunkChan
  /-- The stdout drain thread. -/
  stdout : Drain
  /-- The stderr drain thread. -/
  stderr : Drain
  deriving DecidableEq, Repr

namespace Output

/-- Neither channel nor threads exist. -/
def none : Output := ⟨.none, ⟨.idle, 0⟩, ⟨.idle, 0⟩⟩

/-- The drain thread of a stream. -/
def drain (o : Output) : Stream → Drain
  | .stdout => o.stdout
  | .stderr => o.stderr

/-- The output with another state of a stream's drain thread. -/
def setDrain (o : Output) : Stream → Drain → Output
  | .stdout, d => { o with stdout := d }
  | .stderr, d => { o with stderr := d }

/-- The drain thread of a stream ends and drops its sender. -/
def endDrain (o : Output) (s : Stream) : Output :=
  { o.setDrain s { o.drain s with pc := .done } with chunks := o.chunks.dropTx s }

end Output

/-- One step of the drain thread of stream `s`.  With capture on, any error ends
the loop; without, `io::copy` retries an interrupted read.  A read returns a
prefix of the unread bytes, and end of file once nobody can write any more. -/
def drainStep (capture : Bool) (s : Stream) (t : Tree) (o : Output) :
    DrainAct → Option (Tree × Output)
  | .read r =>
      match (o.drain s).pc with
      | .reading =>
          match r with
          | .bytes bs =>
              if 0 < bs.length ∧ bs.length ≤ bufSize ∧ bs.isPrefixOf (t.buf s) = true then
                some (t.setBuf s ((t.buf s).drop bs.length),
                  o.setDrain s { o.drain s with pc := if capture then .sending bs else .reading })
              else none
          -- end of file: nothing is left, and no live process can write
          | .eof => if t.buf s = [] ∧ t.held s = false then some (t, o.endDrain s) else none
          -- `Err(_) => break` with capture; `io::copy` tries again
          | .interrupted => some (t, if capture then o.endDrain s else o)
          | .error _ => some (t, o.endDrain s)
      | _ => none
  | .send =>
      match (o.drain s).pc with
      | .sending bs =>
          -- a failed send is ignored: the loop goes on and the number is used up
          some (t, { o.setDrain s ⟨.reading, (o.drain s).seq + 1⟩ with
            chunks := o.chunks.send (s.makeMsg (o.drain s).seq bs) })
      | _ => none

/-! ### `wait` -/

/-- Where a call of `wait`, or the wait thread around it, stands. -/
inductive WaitPc
  /-- `wait` has not been called. -/
  | idle
  /-- Before the stdout drain thread is started. -/
  | startOut
  /-- Before the stderr drain thread is started. -/
  | startErr
  /-- In `child.wait()`. -/
  | childWait
  /-- Before the rest of the tree is killed; the result of `child.wait()` is kept. -/
  | killTree (res : Except IoError (Option ℤ))
  /-- Before the stdout drain thread is joined. -/
  | joinOut (res : Except IoError (Option ℤ))
  /-- Before the stderr drain thread is joined. -/
  | joinErr (res : Except IoError (Option ℤ))
  /-- `wait` has returned. -/
  | returned (res : Except AerError ℤ)
  /-- The wait thread has sent the result. -/
  | sent
  /-- The wait thread has ended. -/
  | ended
  /-- `wait` panicked: a drain thread could not be started. -/
  | panicked
  deriving DecidableEq

/-- A call of `wait` and the one-message channel its thread answers on. -/
structure Waiter where
  /-- Where the call stands. -/
  pc : WaitPc
  /-- The message of `wait_tx`, until it is received. -/
  msg : Option (Except AerError ℤ)
  deriving DecidableEq

/-- The steps of `wait` and of the wait thread. -/
inductive WaitAct
  | startOut (ok : Bool)
  | startErr (ok : Bool)
  /-- `child.wait()` returns, with success or with an error. -/
  | childWait (r : Except IoError Unit)
  | killTree (r : Reply)
  | joinOut
  | joinErr
  | send
  | exit
  deriving DecidableEq

/-- What `wait` returns for the result of `child.wait()`: the exit code, -1 if
there is none. -/
def waitResult : Except IoError (Option ℤ) → Except AerError ℤ
  | .ok status => .ok (status.getD (-1))
  | .error e => .error (.waitFailed e)

/-- The step after `child.wait()`.  The Unix backend saves the result and cleans
up in any case; the Windows backend returns an error at once. -/
def WaitPc.afterChildWait : Platform → Except IoError (Option ℤ) → WaitPc
  | .unix, res => .killTree res
  | .windows, .ok status => .killTree (.ok status)
  | .windows, .error e => .returned (waitResult (.error e))

/-- `child.wait()` on the root: `none` while it runs. -/
def childWait (t : Tree) : Option (Tree × Option ℤ) :=
  match t.root with
  | .zombie status => some ({ t with root := .reaped status }, status)
  | _ => none

/-- Killing what is left of the tree, best effort: `killpg(pgid, SIGKILL)` or
`TerminateJobObject`. -/
def killTree (env : Env) (t : Tree) (r : Reply) : Option Tree :=
  match env.platform with
  | .unix =>
      if t.groupReply env r then some (if r = .present then t.killGroup none else t) else none
  | .windows =>
      if r.fits true (!env.permitted) then
        some (if r = .present then t.killGroup terminatedStatus else t)
      else none

/-- One step of `wait`, or of the wait thread around it when capture is on.  A
drain thread that cannot be started makes `wait` panic, which drops the senders
it still holds. -/
def waitStep (env : Env) (capture : Bool) (t : Tree) (o : Output) (w : Waiter) :
    WaitAct → Option (Tree × Output × Waiter)
  | .startOut ok =>
      match w.pc with
      | .startOut =>
          if ok then some (t, { o with stdout := ⟨.reading, 0⟩ }, { w with pc := .startErr })
          else
            -- both senders are still in `sinks`
            some (t, { o with chunks := (o.chunks.dropTx .stdout).dropTx .stderr },
              { w with pc := .panicked })
      | _ => none
  | .startErr ok =>
      match w.pc with
      | .startErr =>
          if ok then some (t, { o with stderr := ⟨.reading, 0⟩ }, { w with pc := .childWait })
          else
            some (t, { o with chunks := o.chunks.dropTx .stderr }, { w with pc := .panicked })
      | _ => none
  | .childWait r =>
      match w.pc with
      | .childWait =>
          match r with
          | .ok () =>
              (childWait t).map fun (t', status) =>
                (t', o, { w with pc := WaitPc.afterChildWait env.platform (.ok status) })
          | .error e =>
              some (t, o, { w with pc := WaitPc.afterChildWait env.platform (.error e) })
      | _ => none
  | .killTree r =>
      match w.pc with
      | .killTree res => (killTree env t r).map fun t' => (t', o, { w with pc := .joinOut res })
      | _ => none
  | .joinOut =>
      match w.pc with
      | .joinOut res =>
          if o.stdout.pc = .done then some (t, o, { w with pc := .joinErr res }) else none
      | _ => none
  | .joinErr =>
      match w.pc with
      | .joinErr res =>
          if o.stderr.pc = .done then some (t, o, { w with pc := .returned (waitResult res) })
          else none
      | _ => none
  | .send =>
      match w.pc with
      | .returned res => if capture then some (t, o, ⟨.sent, some res⟩) else none
      | _ => none
  | .exit =>
      match w.pc with
      | .sent => some (t, o, { w with pc := .ended })
      | _ => none

end AerCore
