import Ods.Deletion
import Ods.Timers
import Ods.EventWaits
import Ods.TickArithmetic
import Ods.Readd
import Ods.Neighbours
import Ods.Runtime
import Ods.QueuedCalls
import Ods.FormatEnd
import Ods.LogLines
import Ods.Periodic
import Ods.Rendezvous
import Ods.HalRtc
import Ods.DecimalText
