import Uvrgw.Dispatch.Watchdog
import Uvrgw.Evals.Validity
import Uvrgw.System.Delivery
import Uvrgw.System.EvalThread
import Uvrgw.System.Power
import Uvrgw.Counters.Threads
import Uvrgw.Lib.Decimal
import Uvrgw.Counters.State
import Uvrgw.Mb.Code
import Uvrgw.Lib.Mailbox
import Uvrgw.Mb.Master
import Uvrgw.Mb.Writes
import Uvrgw.Mb.Fairness
import Uvrgw.Can.Code
import Uvrgw.Can.Send
import Uvrgw.Counters.Saving
import Uvrgw.Mqtt.Logger
import Uvrgw.Can.Decode
import Uvrgw.Mb.Polls
import Uvrgw.Lib.Acyclic
import Uvrgw.Lib.Except
import Uvrgw.Evals.Cycles
import Uvrgw.Lib.Measure
import Uvrgw.System.Cascade
import Uvrgw.Evals.TwoRuns
import Uvrgw.Lib.Locks
import Uvrgw.System.Locks
import Uvrgw.Counters.Device
import Uvrgw.Counters.Integral
import Uvrgw.Conf.Acceptance
import Uvrgw.Lib.Strtol
import Uvrgw.Can.Id
import Uvrgw.Rest.Path
import Uvrgw.Mb.Checks
import Uvrgw.Mb.Image
import Uvrgw.Lib.Traced
import Uvrgw.Mb.Read
import Uvrgw.Lib.Cursor
import Uvrgw.Sunspec.Layout
import Uvrgw.Sunspec.Image
import Uvrgw.Lib.Strtod
import Uvrgw.Mqtt.Input
import Uvrgw.Mb.Numbers
import Uvrgw.Can.Receive
import Uvrgw.Mb.Timing
import Uvrgw.Sunspec.Requests
import Uvrgw.Lib.Json
import Uvrgw.Mqtt.Snapshot
import Uvrgw.Lib.Printf
import Uvrgw.Mqtt.Format
import Uvrgw.Mqtt.Output
import Uvrgw.System.Switches
import Uvrgw.Conf.Slots
import Uvrgw.Evals.Closure
import Uvrgw.Evals.Schedule
import Uvrgw.System.Schedule
import Uvrgw.Evals.Functions
import Uvrgw.Evals.Text
import Uvrgw.Lib.Resources
import Uvrgw.Main.Code
import Uvrgw.Main.Lifecycle
import Uvrgw.Sunspec.Server
import Uvrgw.Evals.Diagnosis
import Uvrgw.Rest.Polls
import Uvrgw.Evals.Counting
import Uvrgw.Mb.Link
import Uvrgw.System.Broker
import Uvrgw.System.Sessions
