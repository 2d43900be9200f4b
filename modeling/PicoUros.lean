import PicoUros.Agent.Watchdog
import PicoUros.Cop.Pulse
import PicoUros.Servo.Reply
import PicoUros.Gnss.Assembler
import PicoUros.Gnss.Coordinates
import PicoUros.Gnss.Epochs
import PicoUros.Gnss.Heading
import PicoUros.Gnss.Overflow
import PicoUros.Gnss.Positions
import PicoUros.Gnss.Publish
import PicoUros.Imu.Advert
import PicoUros.Imu.Hal
import PicoUros.Imu.Publish
import PicoUros.Imu.Reset
import PicoUros.Imu.Transmit
import PicoUros.Net.Boundaries
import PicoUros.Net.Termination
import PicoUros.Net.Write
