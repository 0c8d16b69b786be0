import DroneTurret.Lib.Transition
import DroneTurret.Lib.Tokens
import DroneTurret.Lib.CString
import DroneTurret.Firmware.Servo
import DroneTurret.Firmware.Parse
import DroneTurret.Firmware.ServoLaw
import DroneTurret.Firmware.MainLoop
import DroneTurret.Firmware.Framing
import DroneTurret.Firmware.Races
import DroneTurret.Vision.Encoder
import DroneTurret.Vision.Turret
import DroneTurret.Relay.Login
import DroneTurret.Relay.Authentication
import DroneTurret.Relay.Segmentation
import DroneTurret.Relay.Connection
import DroneTurret.Relay.Server
import DroneTurret.Relay.Delivery
import DroneTurret.Relay.Sessions
import DroneTurret.Relay.History
import DroneTurret.Relay.Routing
import DroneTurret.Relay.Accounting
import DroneTurret.Lib.Decimal
import DroneTurret.Lib.Trim
import DroneTurret.Lib.Events
import DroneTurret.Vision.SendLoop
import DroneTurret.Gui.SockClient
import DroneTurret.Gui.Ingest
import DroneTurret.Gui.Target
import DroneTurret.DbClient.Receive
import DroneTurret.DbClient.Amplification
import DroneTurret.DbClient.Record
import DroneTurret.Gui.Alarm
import DroneTurret.MainPc.Sectors
import DroneTurret.Vision.Polling
import DroneTurret.Vision.Projection
import DroneTurret.Vision.Snapshots
import DroneTurret.Inference.EndSignal
import DroneTurret.Inference.ImageFolder
import DroneTurret.Lib.Greedy
import DroneTurret.Lib.Selection
import DroneTurret.PostProcess.Alignment
import DroneTurret.Lib.FirstMax
import DroneTurret.PostProcess.Letterbox
import DroneTurret.PostProcess.SquareFrame
import DroneTurret.PostProcess.Layout
import DroneTurret.PostProcess.Matching
import DroneTurret.Inference.BoxFormats
import DroneTurret.ObjectDetectionFin.Visualize
import DroneTurret.ObjectDetectionFin.Handler
import DroneTurret.ObjectDetectionFin.Corners
import DroneTurret.Gui.Window
import DroneTurret.DbClient.Grammar
import DroneTurret.Firmware.Grammar
import DroneTurret.Lib.Accesses
import DroneTurret.Firmware.Bounds
import DroneTurret.Lib.Markers
import DroneTurret.Gui.Mjpeg
import DroneTurret.DbClient.Replies
import DroneTurret.Relay.Loader
import DroneTurret.Relay.TokenBounds
import DroneTurret.Relay.Buffers
import DroneTurret.Relay.Descriptors
import DroneTurret.DbClient.WriteAll
import DroneTurret.Lib.Blocks
import DroneTurret.DbClient.InPlace
import DroneTurret.DbClient.Accumulator
import DroneTurret.DbClient.Rounds
import DroneTurret.Firmware.Interrupts
import DroneTurret.Firmware.Uninterrupted
import DroneTurret.Lib.Angles
import DroneTurret.Vision.Imu
import DroneTurret.Lib.Argmin
import DroneTurret.Vision.Selection
import DroneTurret.Vision.Tracking
import DroneTurret.Vision.Baseline
import DroneTurret.Vision.Shutdown
import DroneTurret.Gui.Stream
import DroneTurret.Gui.Review
import DroneTurret.Relay.Handling
import DroneTurret.Relay.Tokenizing
import DroneTurret.Lib.Chunks
import DroneTurret.Relay.Terminal
import DroneTurret.Lib.WeightedSum
import DroneTurret.PostProcess.Dfl
import DroneTurret.PostProcess.YoloHead
import DroneTurret.PostProcess.Paths
import DroneTurret.Inference.Example
import DroneTurret.Lib.Throttle
import DroneTurret.Inference.Consumer
import DroneTurret.ObjectDetectionFin.Autoparse
