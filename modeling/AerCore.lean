import AerCore.Os.Escalate
import AerCore.Orphan
import AerCore.Shared
import AerCore.Natural
import AerCore.Refused
import AerCore.Grace
import AerCore.Deadlock
import AerCore.LastError
import AerCore.Session
import AerCore.Transparent
import AerCore.Environment
import AerCore.Drain
import AerCore.Contract
import AerCore.EventStream
import AerCore.Disposal
import AerCore.Delivery
import AerCore.Work
import AerCore.Exact
import AerCore.Closing
import AerCore.Independent
import AerCore.Causes
import AerCore.Marshal
import AerCore.Report
